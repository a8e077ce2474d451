import Etiam.Library.Table
import Etiam.Vote.UserStorage

/-! The vote record of one account and its byte layout in the storage of the vote account. -/

namespace Etiam

/-- A text that fits the fixed field it is stored in. -/
structure Text (limit : Nat) where
  bytes : Bytes
  bounded : bytes.length ≤ limit

namespace Text

variable {limit : Nat}

/-- The empty text. -/
def empty : Text limit := ⟨[], Nat.zero_le limit⟩

/-- The text in a field of zero-filled bytes, which ends at the first zero. -/
def ofBuffer (limit : Nat) (buffer : Bytes) : Text limit :=
  ⟨(buffer.take limit).takeWhile (· ≠ 0), by
    calc ((buffer.take limit).takeWhile (· ≠ 0)).length
        ≤ (buffer.take limit).length := (List.takeWhile_sublist _).length_le
      _ ≤ limit := List.length_take_le limit buffer⟩

/-- The field that holds the text, filled with zeros. -/
def buffer (text : Text limit) : Bytes :=
  text.bytes ++ List.replicate (limit - text.bytes.length) 0

@[simp] theorem buffer_length (text : Text limit) : text.buffer.length = limit := by
  have := text.bounded
  simp [buffer]
  omega

end Text

/-- The vote record of one account. -/
structure VoteInfo where
  address : Address
  isCandidate : Bool
  receivedVote : U64
  name : Text 40
  url : Text 120
  holdVotes : U64
  voteRecord : Std.ExtTreeMap Address U64

namespace VoteInfo

/-- The bytes of a record before its vote entries. -/
def basicSize : Nat := 178

/-- The bytes of one vote entry: an address and a vote count. -/
def entrySize : Nat := 28

/-- The votes recorded for one candidate. -/
def votesFor (info : VoteInfo) (candidate : Address) : U64 := info.voteRecord.getD candidate 0

/-- The memory of an address, highest byte first. -/
def addressBytes (a : Address) : Bytes := (wordBytes 20 a).reverse

/-- The address that 20 bytes of memory hold. -/
def bytesAddress (bytes : Bytes) : Address := bytesWord 160 bytes.reverse

/-- One entry of the vote record as stored. -/
def entryBytes (entry : Address × U64) : Bytes := addressBytes entry.1 ++ wordBytes 8 entry.2

/-- Drop the entries that hold no vote. -/
def removeZeroVote (info : VoteInfo) : VoteInfo :=
  { info with voteRecord := info.voteRecord.filter fun _ votes => votes ≠ 0 }

/-- The bytes of a record: counts and flags, the two texts, then the entries in address order. -/
def toBytes (info : VoteInfo) : Bytes :=
  [UInt8.ofNat info.voteRecord.size, if info.isCandidate then 1 else 0] ++
    (wordBytes 8 info.holdVotes ++ (wordBytes 8 info.receivedVote ++
      (info.name.buffer ++ (info.url.buffer ++ info.voteRecord.toList.flatMap entryBytes))))

/-- Write a record to storage without its empty entries. -/
def save (s : State) (info : VoteInfo) : State :=
  UserStorage.saveBytes s voteInfoAddress info.address info.removeZeroVote.toBytes

/-- Read the given number of vote entries. -/
def readEntries : Nat → Bytes → List (Address × U64)
  | 0, _ => []
  | count + 1, bytes =>
    (bytesAddress (bytes.take 20), bytesWord 64 ((bytes.drop 20).take 8)) ::
      readEntries count (bytes.drop entrySize)

/-- Rebuild a record from its bytes. -/
def initFromBytes (a : Address) (bytes : Bytes) : VoteInfo where
  address := a
  isCandidate := (bytes.drop 1).headD 0 ≠ 0
  holdVotes := bytesWord 64 ((bytes.drop 2).take 8)
  receivedVote := bytesWord 64 ((bytes.drop 10).take 8)
  name := Text.ofBuffer 40 (bytes.drop 18)
  url := Text.ofBuffer 120 (bytes.drop 58)
  voteRecord := emplaceAll ∅ (readEntries (bytes.headD 0).toNat (bytes.drop basicSize))

/-- Read the record whose first page is given: the first byte tells how many entries follow. -/
def fromPage (s : State) (a : Address) (page : U256) : VoteInfo :=
  let value := pageBytes page
  let size := (value.headD 0).toNat * entrySize + basicSize
  initFromBytes a <|
    if 32 < size then value ++ UserStorage.loadFixedSizeBytes s voteInfoAddress a size 1
    else value.take size

/-- Read the record of an account. -/
def load (s : State) (a : Address) : VoteInfo :=
  fromPage s a (s.storage voteInfoAddress (UserStorage.addressToU256 a 0))

/-- Collect the record that one stored word opens, if it opens one. -/
def collectInfo (s : State) (infos : Std.ExtTreeMap Address VoteInfo) (key page : U256) :
    Std.ExtTreeMap Address VoteInfo :=
  -- Only keys without a page number open a record, and their upper bytes are the address.
  if key.setWidth 96 = 0 then
    infos.insert ((key >>> 96).setWidth 160) (fromPage s ((key >>> 96).setWidth 160) page)
  else infos

/-- Read the records of all accounts whose first page is not empty. -/
def getVoteInfoMap (s : State) : Std.ExtTreeMap Address VoteInfo :=
  (s.storageMap voteInfoAddress).words.foldl (collectInfo s) ∅

/-- A record as it is after a trip through storage: no empty entries, texts cut at a zero. -/
def stored (info : VoteInfo) : VoteInfo :=
  { info.removeZeroVote with
    name := Text.ofBuffer 40 info.name.buffer
    url := Text.ofBuffer 120 info.url.buffer }

/-- The record of an account that never took part in a vote. -/
def blank (a : Address) : VoteInfo where
  address := a
  isCandidate := false
  receivedVote := 0
  name := .empty
  url := .empty
  holdVotes := 0
  voteRecord := ∅

@[simp] theorem bytesAddress_addressBytes (a : Address) : bytesAddress (addressBytes a) = a := by
  simp only [bytesAddress, addressBytes, List.reverse_reverse]
  exact bytesWord_wordBytes (by norm_num) a

@[simp] theorem addressBytes_length (a : Address) : (addressBytes a).length = 20 := by
  simp [addressBytes]

@[simp] theorem entryBytes_length (entry : Address × U64) :
    (entryBytes entry).length = entrySize := by
  simp [entryBytes, entrySize]

theorem readEntries_flatMap (entries : List (Address × U64)) :
    readEntries entries.length (entries.flatMap entryBytes) = entries := by
  induction entries with
  | nil => rfl
  | cons entry rest ih =>
    -- The first entry fills the first 28 bytes, and the rest follows it.
    have front : (entryBytes entry ++ rest.flatMap entryBytes).take 20 = addressBytes entry.1 := by
      rw [entryBytes, List.append_assoc]
      exact List.take_left' (addressBytes_length entry.1)
    have back : ((entryBytes entry ++ rest.flatMap entryBytes).drop 20).take 8 =
        wordBytes 8 entry.2 := by
      rw [entryBytes, List.append_assoc, List.drop_left' (addressBytes_length entry.1)]
      exact List.take_left' (wordBytes_length 8 entry.2)
    have tail : (entryBytes entry ++ rest.flatMap entryBytes).drop entrySize =
        rest.flatMap entryBytes := List.drop_left' (entryBytes_length entry)
    simp only [List.length_cons, List.flatMap_cons, readEntries, front, back, tail, ih,
      bytesAddress_addressBytes, bytesWord_wordBytes (show 2 ^ 64 = 256 ^ 8 by norm_num)]

theorem toBytes_length (info : VoteInfo) :
    info.toBytes.length = info.voteRecord.size * entrySize + basicSize := by
  have entries : (info.voteRecord.toList.flatMap entryBytes).length =
      info.voteRecord.size * entrySize := by
    rw [List.length_flatMap]
    simp [Std.ExtTreeMap.length_toList]
  simp only [toBytes, List.length_append, entries, wordBytes_length, Text.buffer_length, basicSize,
    List.length_cons, List.length_nil]
  omega

theorem ofBuffer_append {limit : Nat} (text : Text limit) (rest : Bytes) :
    Text.ofBuffer limit (text.buffer ++ rest) = Text.ofBuffer limit text.buffer := by
  simp only [Text.ofBuffer, Text.mk.injEq]
  rw [List.take_left' text.buffer_length, List.take_of_length_le (by simp)]

theorem initFromBytes_toBytes (info : VoteInfo) (few : info.voteRecord.size < 256) :
    initFromBytes info.address info.toBytes =
      { info with
        name := Text.ofBuffer 40 info.name.buffer
        url := Text.ofBuffer 120 info.url.buffer } := by
  have word : ∀ value : U64, bytesWord 64 (wordBytes 8 value) = value :=
    bytesWord_wordBytes (by norm_num)
  -- Each field is found after the widths of the fields before it.
  have afterFlags : info.toBytes.drop 2 =
      wordBytes 8 info.holdVotes ++ (wordBytes 8 info.receivedVote ++ (info.name.buffer ++
        (info.url.buffer ++ info.voteRecord.toList.flatMap entryBytes))) := by
    simp [toBytes]
  have afterHold : info.toBytes.drop 10 = wordBytes 8 info.receivedVote ++ (info.name.buffer ++
      (info.url.buffer ++ info.voteRecord.toList.flatMap entryBytes)) := by
    rw [show 10 = 2 + 8 from rfl, ← List.drop_drop, afterFlags, List.drop_left' (by simp)]
  have afterReceived : info.toBytes.drop 18 = info.name.buffer ++
      (info.url.buffer ++ info.voteRecord.toList.flatMap entryBytes) := by
    rw [show 18 = 10 + 8 from rfl, ← List.drop_drop, afterHold, List.drop_left' (by simp)]
  have afterName : info.toBytes.drop 58 =
      info.url.buffer ++ info.voteRecord.toList.flatMap entryBytes := by
    rw [show 58 = 18 + 40 from rfl, ← List.drop_drop, afterReceived, List.drop_left' (by simp)]
  have afterUrl : info.toBytes.drop basicSize = info.voteRecord.toList.flatMap entryBytes := by
    rw [show basicSize = 58 + 120 from rfl, ← List.drop_drop, afterName,
      List.drop_left' (by simp)]
  have count : (info.toBytes.headD 0).toNat = info.voteRecord.toList.length := by
    simp [toBytes, Nat.mod_eq_of_lt few]
  have flag : ((info.toBytes.drop 1).headD 0 ≠ 0) ↔ info.isCandidate = true := by
    cases candidate : info.isCandidate <;> simp [toBytes, candidate]
  simp only [initFromBytes, afterFlags, afterHold, afterReceived, afterName, afterUrl, count, flag,
    List.take_left' (wordBytes_length 8 _), word, ofBuffer_append, readEntries_flatMap,
    emplaceAll_toList, Bool.decide_eq_true]

theorem pageNum_toBytes (info : VoteInfo) (few : info.voteRecord.size < 256) :
    UserStorage.pageNum info.toBytes.length ≤ 2 ^ 96 := by
  rw [toBytes_length, UserStorage.pageNum, entrySize, basicSize]
  omega

theorem pageNum_announced (byte : UInt8) :
    UserStorage.pageNum (byte.toNat * entrySize + basicSize) ≤ 2 ^ 96 := by
  have small : byte.toNat < 256 := byte.toNat_lt
  rw [UserStorage.pageNum, entrySize, basicSize]
  omega

/-- Every record takes more than one page, so the pages after the first are always read. -/
theorem fromPage_eq (s : State) (a : Address) :
    load s a = initFromBytes a (UserStorage.loadFixedSizeBytes s voteInfoAddress a
      (((pageBytes (s.storage voteInfoAddress (UserStorage.addressToU256 a 0))).headD 0).toNat *
        entrySize + basicSize) 0) := by
  have large : 32 < ((pageBytes (s.storage voteInfoAddress
      (UserStorage.addressToU256 a 0))).headD 0).toNat * entrySize + basicSize := by
    rw [basicSize]
    omega
  simp only [load, fromPage, if_pos large]
  rw [UserStorage.loadFixedSizeBytes_first s voteInfoAddress a large]

theorem load_save (s : State) (info : VoteInfo) (few : info.removeZeroVote.voteRecord.size < 256) :
    load (save s info) info.address = info.stored := by
  -- The first byte of the first page announces exactly the entries that were written.
  have bounded := pageNum_toBytes info.removeZeroVote few
  have length := toBytes_length info.removeZeroVote
  have first : (pageBytes ((save s info).storage voteInfoAddress
      (UserStorage.addressToU256 info.address 0))).headD 0 =
      UInt8.ofNat info.removeZeroVote.voteRecord.size := by
    have written := UserStorage.storage_saveBytes s voteInfoAddress info.address
      info.removeZeroVote.toBytes bounded info.address (show 0 < 2 ^ 96 by norm_num)
    have present : 0 < UserStorage.pageNum info.removeZeroVote.toBytes.length := by
      rw [length, UserStorage.pageNum, basicSize]
      omega
    rw [if_pos ⟨rfl, present⟩] at written
    rw [save, written, pageBytes_pageWord (by rw [pageWindow_length]; omega)]
    simp [pageWindow, toBytes]
  have count : (UInt8.ofNat info.removeZeroVote.voteRecord.size).toNat =
      info.removeZeroVote.voteRecord.size := by
    simp [Nat.mod_eq_of_lt few]
  rw [fromPage_eq, first, count, ← length, save,
    UserStorage.loadFixedSizeBytes_saveBytes s voteInfoAddress info.address _ bounded]
  exact initFromBytes_toBytes info.removeZeroVote few

theorem load_save_other (s : State) (info : VoteInfo)
    (few : info.removeZeroVote.voteRecord.size < 256) {a : Address} (other : a ≠ info.address) :
    load (save s info) a = load s a := by
  have bounded := pageNum_toBytes info.removeZeroVote few
  have page := UserStorage.storage_saveBytes s voteInfoAddress info.address
    info.removeZeroVote.toBytes bounded a (show 0 < 2 ^ 96 by norm_num)
  rw [if_neg (fun both => other both.1)] at page
  rw [fromPage_eq, fromPage_eq, save, page,
    UserStorage.loadFixedSizeBytes_saveBytes_other s voteInfoAddress other _ bounded
      (pageNum_announced _)]

@[simp] theorem balance_save (s : State) (info : VoteInfo) (a : Address) :
    (save s info).balance a = s.balance a := by
  simp [save]

theorem load_congr {s t : State}
    (same : s.storageMap voteInfoAddress = t.storageMap voteInfoAddress) (a : Address) :
    load s a = load t a := by
  simp [load, fromPage, UserStorage.loadFixedSizeBytes, State.storage, same]

theorem load_of_page_zero (s : State) (a : Address)
    (page : s.storage voteInfoAddress (UserStorage.addressToU256 a 0) = 0) :
    (load s a).isCandidate = false ∧ (load s a).holdVotes = 0 ∧ (load s a).receivedVote = 0 ∧
      (load s a).voteRecord = ∅ := by
  -- The empty page announces no entries, and all fields before the texts lie on it.
  rw [load, page]
  have shown : pageBytes (0#256) = List.replicate 32 0 := pageBytes_zero
  refine ⟨?_, ?_, ?_, ?_⟩ <;>
    simp [fromPage, initFromBytes, shown, entrySize, basicSize, readEntries, emplaceAll, bytesWord,
      leValue, List.replicate]

theorem key_opens_iff (key : U256) (a : Address) :
    (key.setWidth 96 = 0 ∧ (key >>> 96).setWidth 160 = a) ↔
      key = UserStorage.addressToU256 a 0 := by
  have zero := UserStorage.addressToU256_toNat a (show 0 < 2 ^ 96 by norm_num)
  have keyBound : key.toNat < 2 ^ 256 := key.isLt
  have addressBound : a.toNat < 2 ^ 160 := a.isLt
  constructor
  · rintro ⟨low, high⟩
    have lowBits := congrArg BitVec.toNat low
    have highBits := congrArg BitVec.toNat high
    simp only [BitVec.toNat_setWidth, BitVec.toNat_ushiftRight, Nat.shiftRight_eq_div_pow,
      BitVec.ofNat_eq_ofNat, BitVec.toNat_ofNat] at lowBits highBits
    apply BitVec.eq_of_toNat_eq
    rw [zero]
    omega
  · rintro rfl
    constructor <;> apply BitVec.eq_of_toNat_eq <;>
      simp only [BitVec.toNat_setWidth, BitVec.toNat_ushiftRight, Nat.shiftRight_eq_div_pow, zero,
        BitVec.ofNat_eq_ofNat, BitVec.toNat_ofNat] <;> omega

/-- Collect what the record that one stored word opens gives, if it opens one. -/
def collect {V : Type} (make : Address → U256 → Option V) (table : Std.ExtTreeMap Address V)
    (key page : U256) : Std.ExtTreeMap Address V :=
  if key.setWidth 96 = 0 then
    (make ((key >>> 96).setWidth 160) page).elim table (table.insert ((key >>> 96).setWidth 160))
  else table

section Collect

variable {V : Type} (make : Address → U256 → Option V) (a : Address)

private theorem getElem?_collect (table : Std.ExtTreeMap Address V) (key page : U256) :
    (collect make table key page)[a]? =
      if key = UserStorage.addressToU256 a 0 then (make a page).or table[a]? else table[a]? := by
  unfold collect
  by_cases low : key.setWidth 96 = 0
  · rw [if_pos low]
    by_cases high : (key >>> 96).setWidth 160 = a
    · rw [if_pos ((key_opens_iff key a).mp ⟨low, high⟩), high]
      cases make a page <;> simp
    · rw [if_neg (fun same => high ((key_opens_iff key a).mpr same).2)]
      cases make ((key >>> 96).setWidth 160) page with
      | none => rfl
      | some v => simp [Std.ExtTreeMap.getElem?_insert, high]
  · rw [if_neg low, if_neg (fun same => low ((key_opens_iff key a).mpr same).1)]

private theorem getElem?_foldl_collect (page : U256) :
    ∀ (entries : List (U256 × U256)) (table : Std.ExtTreeMap Address V),
      (∀ entry ∈ entries, entry.1 = UserStorage.addressToU256 a 0 → entry.2 = page) →
      (entries.foldl (fun table entry => collect make table entry.1 entry.2) table)[a]? =
        if ∃ entry ∈ entries, entry.1 = UserStorage.addressToU256 a 0 then
          (make a page).or table[a]?
        else table[a]? := by
  -- Only the entry at the record's own key writes what is held for its address.
  intro entries
  induction entries with
  | nil => intro table _; simp
  | cons entry rest ih =>
    intro table agree
    have tail := ih (collect make table entry.1 entry.2)
      (fun e member => agree e (List.mem_cons_of_mem _ member))
    rw [List.foldl_cons, tail, getElem?_collect]
    by_cases own : entry.1 = UserStorage.addressToU256 a 0
    · have value := agree entry List.mem_cons_self own
      simp [own, value, ← Option.or_assoc]
    · simp [own]

/-- What is collected for an account is what its first page gives, unless that page is empty. -/
theorem getElem?_foldl_words (s : State) :
    ((s.storageMap voteInfoAddress).words.foldl (collect make) ∅)[a]? =
      if s.storage voteInfoAddress (UserStorage.addressToU256 a 0) = 0 then none
      else make a (s.storage voteInfoAddress (UserStorage.addressToU256 a 0)) := by
  set st := s.storageMap voteInfoAddress with storageOf
  -- A stored word is the word that reading the storage returns.
  have kept := st.getElem?_words (UserStorage.addressToU256 a 0)
  have agree : ∀ entry ∈ st.words.toList, entry.1 = UserStorage.addressToU256 a 0 →
      entry.2 = st.read (UserStorage.addressToU256 a 0) := by
    rintro ⟨key, page⟩ member same
    have found := Std.ExtTreeMap.mem_toList_iff_getElem?_eq_some.mp member
    simp only at same
    subst same
    rw [kept] at found
    split at found
    · cases found
    · exact (Option.some.inj found).symm
  have present : (∃ entry ∈ st.words.toList, entry.1 = UserStorage.addressToU256 a 0) ↔
      st.read (UserStorage.addressToU256 a 0) ≠ 0 := by
    constructor
    · rintro ⟨⟨key, page⟩, member, same⟩ zero
      have found := Std.ExtTreeMap.mem_toList_iff_getElem?_eq_some.mp member
      simp only at same
      subst same
      rw [kept, if_pos zero] at found
      cases found
    · intro nonzero
      rw [if_neg nonzero] at kept
      exact ⟨_, Std.ExtTreeMap.mem_toList_iff_getElem?_eq_some.mpr kept, rfl⟩
  rw [Std.ExtTreeMap.foldl_eq_foldl_toList, getElem?_foldl_collect make a _ _ _ agree,
    State.storage, ← storageOf]
  by_cases zero : st.read (UserStorage.addressToU256 a 0) = 0
  · rw [if_neg (fun some => present.mp some zero), if_pos zero]
    simp
  · rw [if_pos (present.mpr zero), if_neg zero]
    simp

end Collect

theorem getElem?_getVoteInfoMap (s : State) (a : Address) :
    (getVoteInfoMap s)[a]? =
      if s.storage voteInfoAddress (UserStorage.addressToU256 a 0) = 0 then none
      else some (load s a) :=
  getElem?_foldl_words (fun a page => some (fromPage s a page)) a s

end VoteInfo

end Etiam
