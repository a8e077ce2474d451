import Etiam.State.World

/-! Byte records kept in consecutive storage pages under a key made of an address. -/

namespace Etiam

/-- The bytes of one storage word, highest first, as a hash shows them. -/
def pageBytes (word : U256) : Bytes := (wordBytes 32 word).reverse

/-- The storage word of up to 32 bytes, aligned left and filled with zeros. -/
def pageWord (bytes : Bytes) : U256 :=
  bytesWord 256 (bytes ++ List.replicate (32 - bytes.length) 0).reverse

@[simp] theorem pageBytes_length (word : U256) : (pageBytes word).length = 32 := by
  simp [pageBytes]

theorem pageBytes_pageWord {bytes : Bytes} (fits : bytes.length ≤ 32) :
    pageBytes (pageWord bytes) = bytes ++ List.replicate (32 - bytes.length) 0 := by
  -- The filled page is exactly as wide as the word.
  have width : (bytes ++ List.replicate (32 - bytes.length) (0 : UInt8)).reverse.length = 32 := by
    simp; omega
  have whole : 2 ^ 256 =
      256 ^ (bytes ++ List.replicate (32 - bytes.length) (0 : UInt8)).reverse.length := by
    rw [width]
    norm_num
  have back := wordBytes_bytesWord _ whole
  rw [width] at back
  rw [pageBytes, pageWord, back, List.reverse_reverse]

@[simp] theorem pageBytes_zero : pageBytes 0 = List.replicate 32 0 := by decide

namespace UserStorage

/-- The storage key of one page of an address: the address shifted up, plus the page number. -/
def addressToU256 (a : Address) (postfixNumber : Nat) : U256 :=
  (a.setWidth 256 <<< 96) + BitVec.ofNat 256 postfixNumber

theorem addressToU256_toNat (a : Address) {page : Nat} (small : page < 2 ^ 96) :
    (addressToU256 a page).toNat = a.toNat * 2 ^ 96 + page := by
  have bound : a.toNat < 2 ^ 160 := a.isLt
  simp only [addressToU256, BitVec.toNat_add, BitVec.toNat_shiftLeft, BitVec.toNat_setWidth,
    BitVec.toNat_ofNat, Nat.shiftLeft_eq]
  omega

theorem addressToU256_inj {a b : Address} {page other : Nat}
    (small : page < 2 ^ 96) (otherSmall : other < 2 ^ 96) :
    addressToU256 a page = addressToU256 b other ↔ a = b ∧ page = other := by
  constructor
  · intro same
    have numbers := congrArg BitVec.toNat same
    rw [addressToU256_toNat a small, addressToU256_toNat b otherSmall] at numbers
    exact ⟨BitVec.eq_of_toNat_eq (by omega), by omega⟩
  · rintro ⟨rfl, rfl⟩
    rfl

/-- The pages that a record of the given size takes. -/
def pageNum (size : Nat) : Nat := (size + 31) / 32

/-- Read the pages of a record from the given one on, the last page only as far as the size. -/
def loadFixedSizeBytes (s : State) (storageaddress keyaddress : Address) (size startPage : Nat) :
    Bytes :=
  ((List.range (pageNum size)).drop startPage).flatMap fun page =>
    (pageBytes (s.storage storageaddress (addressToU256 keyaddress page))).take
      (if page = pageNum size - 1 then size - 32 * page else 32)

/-- Write the first pages of a record in order. -/
def savePages (s : State) (storageaddress keyaddress : Address) (data : Bytes) (count : Nat) :
    State :=
  (List.range count).foldl
    (fun s page =>
      s.setStorage storageaddress (addressToU256 keyaddress page)
        (pageWord (pageWindow 32 data page)))
    s

/-- Write a record page by page. -/
def saveBytes (s : State) (storageaddress keyaddress : Address) (data : Bytes) : State :=
  savePages s storageaddress keyaddress data (pageNum data.length)

variable (s : State)

private theorem savePages_succ (storageaddress keyaddress : Address) (data : Bytes) (count : Nat) :
    savePages s storageaddress keyaddress data (count + 1) =
      (savePages s storageaddress keyaddress data count).setStorage storageaddress
        (addressToU256 keyaddress count) (pageWord (pageWindow 32 data count)) := by
  simp [savePages, List.range_succ]

private theorem storage_savePages (storageaddress keyaddress : Address) (data : Bytes)
    (count : Nat) (bounded : count ≤ 2 ^ 96) (a : Address) {page : Nat} (small : page < 2 ^ 96) :
    (savePages s storageaddress keyaddress data count).storage storageaddress
        (addressToU256 a page) =
      if a = keyaddress ∧ page < count then pageWord (pageWindow 32 data page)
      else s.storage storageaddress (addressToU256 a page) := by
  -- The induction is on the pages written so far, and each write touches its own key.
  induction count with
  | zero => simp [savePages]
  | succ count ih =>
    rw [savePages_succ, State.storage, State.storageMap_setStorage, if_pos rfl, Storage.read_write]
    simp only [addressToU256_inj (show count < 2 ^ 96 by omega) small]
    by_cases last : keyaddress = a ∧ count = page
    · obtain ⟨rfl, rfl⟩ := last
      simp
    · rw [if_neg last]
      have earlier := ih (by omega)
      rw [State.storage] at earlier
      rw [earlier]
      by_cases own : a = keyaddress
      · subst own
        have differs : count ≠ page := fun same => last ⟨rfl, same⟩
        by_cases below : page < count
        · rw [if_pos ⟨rfl, below⟩, if_pos ⟨rfl, by omega⟩]
        · rw [if_neg (fun both => below both.2), if_neg (fun both => by omega)]
      · rw [if_neg (fun both => own both.1), if_neg (fun both => own both.1)]

private theorem balance_savePages (storageaddress keyaddress : Address) (data : Bytes)
    (count : Nat) (b : Address) :
    (savePages s storageaddress keyaddress data count).balance b = s.balance b := by
  induction count with
  | zero => simp [savePages]
  | succ count ih => rw [savePages_succ, State.balance_setStorage, ih]

theorem storage_saveBytes (storageaddress keyaddress : Address) (data : Bytes)
    (bounded : pageNum data.length ≤ 2 ^ 96) (a : Address) {page : Nat} (small : page < 2 ^ 96) :
    (saveBytes s storageaddress keyaddress data).storage storageaddress (addressToU256 a page) =
      if a = keyaddress ∧ page < pageNum data.length then pageWord (pageWindow 32 data page)
      else s.storage storageaddress (addressToU256 a page) :=
  storage_savePages s storageaddress keyaddress data _ bounded a small

@[simp] theorem balance_saveBytes (storageaddress keyaddress : Address) (data : Bytes)
    (b : Address) : (saveBytes s storageaddress keyaddress data).balance b = s.balance b :=
  balance_savePages s storageaddress keyaddress data _ b

/-- The pages after the first one complete the record that the first page opens. -/
theorem loadFixedSizeBytes_first (storageaddress keyaddress : Address) {size : Nat}
    (large : 32 < size) :
    pageBytes (s.storage storageaddress (addressToU256 keyaddress 0)) ++
        loadFixedSizeBytes s storageaddress keyaddress size 1 =
      loadFixedSizeBytes s storageaddress keyaddress size 0 := by
  -- A record of more than one page shows its whole first page.
  obtain ⟨count, pages⟩ : ∃ count, pageNum size = count + 2 := ⟨pageNum size - 2, by
    unfold pageNum; omega⟩
  have full : ((pageBytes (s.storage storageaddress (addressToU256 keyaddress 0))).take 32) =
      pageBytes (s.storage storageaddress (addressToU256 keyaddress 0)) :=
    List.take_of_length_le (by simp)
  simp [loadFixedSizeBytes, pages, List.range_succ_eq_map, full]

theorem loadFixedSizeBytes_saveBytes (storageaddress keyaddress : Address) (data : Bytes)
    (bounded : pageNum data.length ≤ 2 ^ 96) :
    loadFixedSizeBytes (saveBytes s storageaddress keyaddress data) storageaddress keyaddress
      data.length 0 = data := by
  -- Each page shows its window of the data, cut where the data ends.
  have shown : ∀ page ∈ List.range (pageNum data.length),
      (pageBytes ((saveBytes s storageaddress keyaddress data).storage storageaddress
          (addressToU256 keyaddress page))).take
        (if page = pageNum data.length - 1 then data.length - 32 * page else 32) =
      pageWindow 32 data page := by
    intro page member
    have inside : page < pageNum data.length := List.mem_range.mp member
    have short : (pageWindow 32 data page).length ≤ 32 := by rw [pageWindow_length]; omega
    have stored := storage_saveBytes s storageaddress keyaddress data bounded keyaddress
      (show page < 2 ^ 96 by omega)
    rw [if_pos ⟨rfl, inside⟩] at stored
    rw [stored, pageBytes_pageWord short]
    have cut : (if page = pageNum data.length - 1 then data.length - 32 * page else 32) =
        (pageWindow 32 data page).length := by
      rw [pageWindow_length]
      unfold pageNum at inside ⊢
      split <;> omega
    rw [cut, List.take_left]
  rw [loadFixedSizeBytes, List.drop_zero, List.flatMap_congr shown, flatMap_pageWindow]
  exact List.take_of_length_le (by unfold pageNum; omega)

theorem loadFixedSizeBytes_saveBytes_other (storageaddress : Address) {keyaddress a : Address}
    (other : a ≠ keyaddress) (data : Bytes) (bounded : pageNum data.length ≤ 2 ^ 96) {size : Nat}
    (small : pageNum size ≤ 2 ^ 96) (startPage : Nat) :
    loadFixedSizeBytes (saveBytes s storageaddress keyaddress data) storageaddress a size
      startPage = loadFixedSizeBytes s storageaddress a size startPage := by
  unfold loadFixedSizeBytes
  refine List.flatMap_congr fun page member => ?_
  have inside : page < pageNum size := List.mem_range.mp (List.mem_of_mem_drop member)
  have kept := storage_saveBytes s storageaddress keyaddress data bounded a
    (show page < 2 ^ 96 by omega)
  rw [if_neg (fun both => other both.1)] at kept
  rw [kept]

end UserStorage

end Etiam
