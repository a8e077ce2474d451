import Etiam.Vote.UserStorage

/-! Proof-of-work operations: how they are received, stored in pages and read again. -/

namespace Etiam

/-- A proof-of-work operation with all of its fields. -/
structure PowRecord where
  workerPubkey : BitVec 512
  blockId : Hash
  nonce : U64
  input : Hash
  work : Hash
  signature : BitVec 520
  deriving DecidableEq

/-- The bytes of a fixed hash, highest first. -/
def hashBytes {width : ℕ} (count : ℕ) (hash : BitVec width) : Bytes :=
  (wordBytes count hash).reverse

/-- The fixed hash of bytes, highest first. -/
def bytesHash (width : ℕ) (bytes : Bytes) : BitVec width := bytesWord width bytes.reverse

section Hashes

variable {width count : ℕ}

@[simp] theorem hashBytes_length (hash : BitVec width) : (hashBytes count hash).length = count := by
  simp [hashBytes]

private theorem two_pow_bits (fits : width = 8 * count) : 2 ^ width = 256 ^ count := by
  rw [fits, Nat.pow_mul]

theorem bytesHash_hashBytes (fits : width = 8 * count) (hash : BitVec width) :
    bytesHash width (hashBytes count hash) = hash := by
  rw [bytesHash, hashBytes, List.reverse_reverse, bytesWord_wordBytes (two_pow_bits fits)]

end Hashes

namespace StateMap

/-- The lowest digits of a number in base eight, one in a byte. -/
def digits : ℕ → ℕ → Bytes
  | 0, _ => []
  | count + 1, number => UInt8.ofNat (number % 8) :: digits count (number / 8)

/-- The number that bytes spell in base eight. -/
def digitsValue : Bytes → ℕ
  | [] => 0
  | byte :: rest => byte.toNat + 8 * digitsValue rest

/-- A 64-bit number as eight bytes. -/
def uint64ToBytes (number : U64) : Bytes := digits 8 number.toNat

/-- The 64-bit number of bytes. -/
def bytesToUint64 (bytes : Bytes) : U64 :=
  bytes.foldr (fun byte res => res * 8 + BitVec.ofNat 64 byte.toNat) 0

section Digits

@[simp] theorem digits_length (count number : ℕ) : (digits count number).length = count := by
  induction count generalizing number with
  | zero => rfl
  | succ count ih => simp [digits, ih]

theorem digitsValue_digits (count number : ℕ) :
    digitsValue (digits count number) = number % 8 ^ count := by
  induction count generalizing number with
  | zero => simp [digits, digitsValue, Nat.mod_one]
  | succ count ih =>
    have low : (UInt8.ofNat (number % 8)).toNat = number % 8 := by
      rw [UInt8.toNat_ofNat']
      omega
    simp only [digits, digitsValue, ih, low]
    rw [Nat.pow_succ, Nat.mul_comm (8 ^ count) 8, Nat.mod_mul]

end Digits

/-- The key of a page: the address, the digits of the page's number, and zeros. -/
def expand (address : Address) (number : ℕ) : U256 :=
  pageWord (hashBytes 20 address ++ digits 8 number ++ List.replicate 4 0)

/-- The address that a key begins with. -/
def powAddr (key : U256) : Address := bytesHash 160 ((pageBytes key).take 20)

/-- The pages that data are saved in, with a last one that is only filled in part. -/
def pages (address : Address) (data : Bytes) : List (U256 × U256) :=
  (List.range (data.length / 32 + 1)).map fun i =>
    (expand address i, pageWord (pageWindow 32 data i))

/-- Save data in the pages of an address. -/
def saveInMaps (map : Storage) (address : Address) (data : Bytes) : Storage :=
  (pages address data).foldl (fun map page => map.write page.1 page.2) map

/-- Load data of a size from the pages of an address. -/
def loadFromMap (map : Storage) (address : Address) (size : ℕ) : Bytes :=
  ((List.range (size / 32)).flatMap fun i => pageBytes (map.read (expand address i))) ++
    (pageBytes (map.read (expand address (size / 32)))).take (size % 32)

section Pages

variable {map : Storage} {a b : Address} {data : Bytes}

theorem pageBytes_expand (a : Address) (number : ℕ) :
    pageBytes (expand a number) = hashBytes 20 a ++ digits 8 number ++ List.replicate 4 0 := by
  have size : (hashBytes 20 a ++ digits 8 number ++ List.replicate 4 0).length = 32 := by simp
  rw [expand, pageBytes_pageWord (Nat.le_of_eq size), size, Nat.sub_self, List.replicate_zero,
    List.append_nil]

theorem powAddr_expand (a : Address) (number : ℕ) : powAddr (expand a number) = a := by
  have front : (hashBytes 20 a ++ digits 8 number ++ List.replicate 4 0).take 20 =
      hashBytes 20 a := by
    rw [List.append_assoc, List.take_left' (hashBytes_length a)]
  rw [powAddr, pageBytes_expand, front, bytesHash_hashBytes (show 160 = 8 * 20 by rfl)]

theorem expand_inj {i j : ℕ} (low : i < 8 ^ 8) (low' : j < 8 ^ 8) :
    expand a i = expand b j ↔ a = b ∧ i = j := by
  constructor
  · intro same
    have owner : a = b := by rw [← powAddr_expand a i, same, powAddr_expand]
    subst owner
    refine ⟨rfl, ?_⟩
    have shown := congrArg pageBytes same
    rw [pageBytes_expand, pageBytes_expand, List.append_left_inj, List.append_right_inj] at shown
    have values := congrArg digitsValue shown
    rw [digitsValue_digits, digitsValue_digits, Nat.mod_eq_of_lt low, Nat.mod_eq_of_lt low']
      at values
    exact values
  · rintro ⟨rfl, rfl⟩
    rfl

theorem read_saveInMaps (bounded : data.length / 32 < 8 ^ 8) {j : ℕ} (low : j < 8 ^ 8) :
    (saveInMaps map a data).read (expand b j) =
      if b = a ∧ j ≤ data.length / 32 then pageWord (pageWindow 32 data j)
      else map.read (expand b j) := by
  -- The induction is on the pages that are written, each of which has its own key.
  have written : ∀ count ≤ data.length / 32 + 1,
      (((List.range count).map fun i => (expand a i, pageWord (pageWindow 32 data i))).foldl
        (fun (map : Storage) page => map.write page.1 page.2) map).read (expand b j) =
      if b = a ∧ j < count then pageWord (pageWindow 32 data j) else map.read (expand b j) := by
    intro count
    induction count with
    | zero => simp
    | succ count ih =>
      intro few
      rw [List.range_succ, List.map_append, List.foldl_append, List.map_singleton,
        List.foldl_cons, List.foldl_nil, Storage.read_write, ih (by omega)]
      simp only [expand_inj (show count < 8 ^ 8 by omega) low]
      by_cases here : a = b ∧ count = j
      · obtain ⟨rfl, rfl⟩ := here
        simp
      · rw [if_neg here]
        by_cases own : b = a
        · subst own
          have other : count ≠ j := fun same => here ⟨rfl, same⟩
          by_cases below : j < count
          · rw [if_pos ⟨rfl, below⟩, if_pos ⟨rfl, by omega⟩]
          · rw [if_neg (fun both => below both.2), if_neg (fun both => by omega)]
        · rw [if_neg (fun both => own both.1), if_neg (fun both => own both.1)]
  rw [saveInMaps, pages, written _ (Nat.le_refl _)]
  simp only [Nat.lt_succ_iff]

theorem loadFromMap_saveInMaps (bounded : data.length / 32 < 8 ^ 8) :
    loadFromMap (saveInMaps map a data) a data.length = data := by
  have shown : ∀ i, i ≤ data.length / 32 →
      pageBytes ((saveInMaps map a data).read (expand a i)) =
        pageWindow 32 data i ++ List.replicate (32 - (pageWindow 32 data i).length) 0 := by
    intro i inside
    rw [read_saveInMaps bounded (by omega), if_pos ⟨rfl, inside⟩,
      pageBytes_pageWord (by rw [pageWindow_length]; omega)]
  have full : ∀ i ∈ List.range (data.length / 32),
      pageBytes ((saveInMaps map a data).read (expand a i)) = pageWindow 32 data i := by
    intro i member
    have inside := List.mem_range.mp member
    have size : (pageWindow 32 data i).length = 32 := by
      rw [pageWindow_length]
      omega
    rw [shown i (by omega), size, Nat.sub_self, List.replicate_zero, List.append_nil]
  have last : (pageWindow 32 data (data.length / 32)).length = data.length % 32 := by
    rw [pageWindow_length]
    omega
  have rest : pageWindow 32 data (data.length / 32) = data.drop (32 * (data.length / 32)) := by
    rw [pageWindow]
    exact List.take_of_length_le (by rw [List.length_drop]; omega)
  rw [loadFromMap, List.flatMap_congr full, flatMap_pageWindow, shown _ (Nat.le_refl _), ← last,
    List.take_left, rest, List.take_append_drop]

theorem loadFromMap_saveInMaps_other (other : b ≠ a) (bounded : data.length / 32 < 8 ^ 8)
    {size : ℕ} (small : size / 32 < 8 ^ 8) :
    loadFromMap (saveInMaps map a data) b size = loadFromMap map b size := by
  have same : ∀ j, j ≤ size / 32 →
      (saveInMaps map a data).read (expand b j) = map.read (expand b j) := by
    intro j inside
    rw [read_saveInMaps bounded (by omega), if_neg (fun both => other both.1)]
  have full : ∀ i ∈ List.range (size / 32),
      pageBytes ((saveInMaps map a data).read (expand b i)) =
        pageBytes (map.read (expand b i)) := by
    intro i member
    rw [same i (Nat.le_of_lt (List.mem_range.mp member))]
  rw [loadFromMap, loadFromMap, List.flatMap_congr full, same _ (Nat.le_refl _)]

end Pages

end StateMap

/-- Some consecutive bytes of a longer string. -/
def field (bytes : Bytes) (start count : ℕ) : Bytes := (bytes.drop start).take count

section Fields

variable {bytes : Bytes} {start count : ℕ}

theorem field_middle {before part after : Bytes} (starts : before.length = start)
    (long : part.length = count) : field (before ++ part ++ after) start count = part := by
  rw [field, List.append_assoc, List.drop_left' starts, List.take_left' long]

end Fields

namespace PowRecord

open StateMap

/-- The number of bytes of an operation. -/
def size : ℕ := 64 + 32 + 8 + 32 + 32 + 65

/-- An operation from its bytes. -/
def loadImpl (bytes : Bytes) : PowRecord where
  workerPubkey := bytesHash 512 (field bytes 0 64)
  blockId := bytesHash 256 (field bytes 64 32)
  nonce := bytesToUint64 (field bytes 96 8)
  input := bytesHash 256 (field bytes 104 32)
  work := bytesHash 256 (field bytes 136 32)
  signature := bytesHash 520 (field bytes 168 65)

/-- The bytes that an operation is saved as. -/
def saveImpl (op : PowRecord) : Bytes :=
  hashBytes 64 op.workerPubkey ++ hashBytes 32 op.blockId ++ uint64ToBytes op.nonce ++
    hashBytes 32 op.input ++ hashBytes 32 op.work ++ hashBytes 65 op.signature

/-- The operation of an address in the storage for such operations. -/
def load (map : Storage) (address : Address) : PowRecord :=
  loadImpl (loadFromMap map address size)

/-- Save the operation of an address there. -/
def save (map : Storage) (address : Address) (op : PowRecord) : Storage :=
  saveInMaps map address op.saveImpl

/-- What eight digits keep of an operation. -/
def clipped (op : PowRecord) : PowRecord :=
  { op with nonce := bytesToUint64 (uint64ToBytes op.nonce) }

@[simp] theorem saveImpl_length (op : PowRecord) : op.saveImpl.length = size := by
  simp [saveImpl, uint64ToBytes, size]

theorem fields_append {pubkey block nonce input work signature : Bytes}
    (h1 : pubkey.length = 64) (h2 : block.length = 32) (h3 : nonce.length = 8)
    (h4 : input.length = 32) (h5 : work.length = 32) (h6 : signature.length = 65) :
    let whole := pubkey ++ block ++ nonce ++ input ++ work ++ signature
    field whole 0 64 = pubkey ∧ field whole 64 32 = block ∧ field whole 96 8 = nonce ∧
      field whole 104 32 = input ∧ field whole 136 32 = work ∧ field whole 168 65 = signature := by
  intro whole
  refine ⟨?_, ?_, ?_, ?_, ?_, ?_⟩
  · have first : whole = [] ++ pubkey ++ (block ++ nonce ++ input ++ work ++ signature) := by
      simp [whole]
    rw [first]
    exact field_middle rfl h1
  · have second : whole = pubkey ++ block ++ (nonce ++ input ++ work ++ signature) := by
      simp [whole]
    rw [second]
    exact field_middle h1 h2
  · have third : whole = pubkey ++ block ++ nonce ++ (input ++ work ++ signature) := by
      simp [whole]
    rw [third]
    exact field_middle (by simp [h1, h2]) h3
  · have fourth : whole = pubkey ++ block ++ nonce ++ input ++ (work ++ signature) := by
      simp [whole]
    rw [fourth]
    exact field_middle (by simp [h1, h2, h3]) h4
  · exact field_middle (by simp [h1, h2, h3, h4]) h5
  · have sixth : whole = pubkey ++ block ++ nonce ++ input ++ work ++ signature ++ [] := by
      simp [whole]
    rw [sixth]
    exact field_middle (by simp [h1, h2, h3, h4, h5]) h6

/-- The bytes of an operation say all about it but the high part of its nonce. -/
theorem loadImpl_saveImpl (op : PowRecord) : loadImpl op.saveImpl = op.clipped := by
  obtain ⟨pubkey, block, nonces, inputs, works, signed⟩ := fields_append
    (hashBytes_length op.workerPubkey) (hashBytes_length op.blockId)
    (digits_length 8 op.nonce.toNat) (hashBytes_length op.input) (hashBytes_length op.work)
    (hashBytes_length op.signature)
  change field op.saveImpl 0 64 = _ at pubkey
  change field op.saveImpl 64 32 = _ at block
  change field op.saveImpl 96 8 = _ at nonces
  change field op.saveImpl 104 32 = _ at inputs
  change field op.saveImpl 136 32 = _ at works
  change field op.saveImpl 168 65 = _ at signed
  rw [loadImpl, clipped, pubkey, block, nonces, inputs, works, signed]
  simp only [bytesHash_hashBytes (show 512 = 8 * 64 by rfl),
    bytesHash_hashBytes (show 256 = 8 * 32 by rfl),
    bytesHash_hashBytes (show 520 = 8 * 65 by rfl), uint64ToBytes]

section Stored

variable {map : Storage} {a b : Address} {op : PowRecord}

theorem load_save : load (save map a op) a = op.clipped := by
  have back : loadFromMap (save map a op) a op.saveImpl.length = op.saveImpl :=
    loadFromMap_saveInMaps (by rw [saveImpl_length]; decide)
  rw [load, ← saveImpl_length op, back, loadImpl_saveImpl]

theorem load_save_other (other : b ≠ a) : load (save map a op) b = load map b := by
  rw [load, save, loadFromMap_saveInMaps_other other (by rw [saveImpl_length]; decide) (by decide),
    load]

end Stored

end PowRecord

namespace PowRecord

open StateMap

variable (crypto : PowCrypto) (op : PowRecord)

end PowRecord

namespace State

open PowRecord

section Collected

variable {s : State} {a b : Address} {op : PowRecord}

end Collected

end State

end Etiam
