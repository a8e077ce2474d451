import Etiam.Producer.Race
import Etiam.State.World
import Etiam.Library.Rlp

/-! The header of a block with all of its fields, its encoding, and the headers that are read from
bytes. -/

namespace Etiam

open Rlp

/-- A signature as a header carries it. -/
structure Signature where
  r : Hash
  s : Hash
  v : BitVec 8
  deriving DecidableEq

/-- The fields of a block header. -/
structure BlockInfo where
  parentHash : Hash
  sha3Uncles : Hash
  author : Address
  stateRoot : Hash
  transactionsRoot : Hash
  receiptsRoot : Hash
  logBloom : LogBloom
  difficulty : U256
  number : U256
  gasLimit : U256
  gasUsed : U256
  timestamp : U256
  extraData : Bytes
  runningVersion : U32
  hardforkVersion : U32
  hardforkTime : U32
  signature : Signature
  deriving DecidableEq

/-- The fields of a header that says nothing. -/
def BlockInfo.blank : BlockInfo :=
  ⟨0, 0, 0, 0, 0, 0, 0, 0, 0, 0, 0, 0, [], 0, 0, 0, ⟨0, 0, 0⟩⟩

namespace BlockInfo

/-- The fields before the extra data, as they are written. -/
def frontFields (h : BlockInfo) : List Bytes :=
  [writeHash h.parentHash, writeHash h.sha3Uncles, writeHash h.author, writeHash h.stateRoot,
    writeHash h.transactionsRoot, writeHash h.receiptsRoot, writeHash h.logBloom,
    writeInt h.difficulty, writeInt h.number, writeInt h.gasLimit, writeInt h.gasUsed,
    writeInt h.timestamp]

/-- The fields after the extra data and before the signature, as they are written. -/
def versionFields (h : BlockInfo) : List Bytes :=
  [writeInt h.runningVersion, writeInt h.hardforkVersion, writeInt h.hardforkTime]

/-- The signature as it is written. -/
def signatureFields (h : BlockInfo) : List Bytes :=
  [appendInt 4 (h.signature.v.toNat + 27), writeInt h.signature.r, writeInt h.signature.s]

/-- The fields of a header, as they are written. -/
def streamRLPFields (h : BlockInfo) : List Bytes :=
  h.frontFields ++ append h.extraData :: h.versionFields

/-- A header with its signature, as it is written. -/
def streamRLP (h : BlockInfo) : Bytes :=
  appendList (h.streamRLPFields ++ h.signatureFields).flatten

/-- Read the fields of a header. -/
def populate (header : Bytes) : Option BlockInfo := do
  let parentHash ← (item header 0).bind (readHash 256)
  let sha3Uncles ← (item header 1).bind (readHash 256)
  let author ← (item header 2).bind (readHash 160)
  let stateRoot ← (item header 3).bind (readHash 256)
  let transactionsRoot ← (item header 4).bind (readHash 256)
  let receiptsRoot ← (item header 5).bind (readHash 256)
  let logBloom ← (item header 6).bind (readHash 2048)
  let difficulty ← (item header 7).bind (readInt 256)
  let number ← (item header 8).bind (readInt 256)
  let gasLimit ← (item header 9).bind (readInt 256)
  let gasUsed ← (item header 10).bind (readInt 256)
  let timestamp ← (item header 11).bind (readInt 256)
  let extraData ← (item header 12).bind toBytes
  let runVer ← (item header 13).bind (readInt 32)
  let hfVer ← (item header 14).bind (readInt 32)
  let hfTime ← (item header 15).bind (readInt 32)
  let v ← (item header 16).bind (readInt 8)
  let r ← (item header 17).bind (readInt 256)
  let s ← (item header 18).bind (readInt 256)
  return ⟨parentHash, sha3Uncles, author, stateRoot, transactionsRoot, receiptsRoot, logBloom,
    difficulty, number, gasLimit, gasUsed, timestamp, extraData, runVer, hfVer, hfTime,
    ⟨r, s, v - 27⟩⟩

/-- A header that is made from bytes, with the hash that it keeps. -/
def ofHeaderData (sha3 : Bytes → Hash) (header : Bytes) : Option (BlockInfo × Hash) :=
  if isWhole header then (populate header).map (·, sha3 header) else none

/-- The hash of a header that was not made from bytes. -/
def hashWithSeal (sha3 : Bytes → Hash) (h : BlockInfo) : Hash := sha3 h.streamRLP

/-- What is read from an item is what was written there. -/
def Field {α : Type} (header : Bytes) (i : ℕ) (read : Bytes → Option α) (value : α) : Prop :=
  (item header i).bind read = some value

theorem populate_eq_some_iff {header : Bytes} {h : BlockInfo} :
    populate header = some h ↔
      (Field header 0 (readHash 256) h.parentHash ∧ Field header 1 (readHash 256) h.sha3Uncles ∧
        Field header 2 (readHash 160) h.author ∧ Field header 3 (readHash 256) h.stateRoot ∧
        Field header 4 (readHash 256) h.transactionsRoot ∧
        Field header 5 (readHash 256) h.receiptsRoot ∧
        Field header 6 (readHash 2048) h.logBloom) ∧
      (Field header 7 (readInt 256) h.difficulty ∧ Field header 8 (readInt 256) h.number ∧
        Field header 9 (readInt 256) h.gasLimit ∧ Field header 10 (readInt 256) h.gasUsed ∧
        Field header 11 (readInt 256) h.timestamp) ∧
      Field header 12 toBytes h.extraData ∧
      (Field header 13 (readInt 32) h.runningVersion ∧
        Field header 14 (readInt 32) h.hardforkVersion ∧
        Field header 15 (readInt 32) h.hardforkTime) ∧
      Field header 16 (readInt 8) (h.signature.v + 27) ∧
      Field header 17 (readInt 256) h.signature.r ∧
      Field header 18 (readInt 256) h.signature.s := by
  simp only [Field]
  constructor
  · intro read
    unfold populate at read
    obtain ⟨x0, h0, read⟩ := Option.bind_eq_some_iff.mp read
    obtain ⟨x1, h1, read⟩ := Option.bind_eq_some_iff.mp read
    obtain ⟨x2, h2, read⟩ := Option.bind_eq_some_iff.mp read
    obtain ⟨x3, h3, read⟩ := Option.bind_eq_some_iff.mp read
    obtain ⟨x4, h4, read⟩ := Option.bind_eq_some_iff.mp read
    obtain ⟨x5, h5, read⟩ := Option.bind_eq_some_iff.mp read
    obtain ⟨x6, h6, read⟩ := Option.bind_eq_some_iff.mp read
    obtain ⟨x7, h7, read⟩ := Option.bind_eq_some_iff.mp read
    obtain ⟨x8, h8, read⟩ := Option.bind_eq_some_iff.mp read
    obtain ⟨x9, h9, read⟩ := Option.bind_eq_some_iff.mp read
    obtain ⟨x10, h10, read⟩ := Option.bind_eq_some_iff.mp read
    obtain ⟨x11, h11, read⟩ := Option.bind_eq_some_iff.mp read
    obtain ⟨x12, h12, read⟩ := Option.bind_eq_some_iff.mp read
    obtain ⟨x13, h13, read⟩ := Option.bind_eq_some_iff.mp read
    obtain ⟨x14, h14, read⟩ := Option.bind_eq_some_iff.mp read
    obtain ⟨x15, h15, read⟩ := Option.bind_eq_some_iff.mp read
    obtain ⟨x16, h16, read⟩ := Option.bind_eq_some_iff.mp read
    obtain ⟨x17, h17, read⟩ := Option.bind_eq_some_iff.mp read
    obtain ⟨x18, h18, read⟩ := Option.bind_eq_some_iff.mp read
    obtain rfl := Option.some.inj read
    simp only [BitVec.sub_add_cancel]
    exact ⟨⟨h0, h1, h2, h3, h4, h5, h6⟩, ⟨h7, h8, h9, h10, h11⟩, h12, ⟨h13, h14, h15⟩, h16, h17,
      h18⟩
  · rintro ⟨⟨h0, h1, h2, h3, h4, h5, h6⟩, ⟨h7, h8, h9, h10, h11⟩, h12, ⟨h13, h14, h15⟩, h16,
      h17, h18⟩
    rw [populate, h0, h1, h2, h3, h4, h5, h6, h7, h8, h9, h10, h11, h12, h13, h14, h15, h16,
      h17, h18]
    simp only [Option.bind_eq_bind, Option.bind_some, Option.pure_def, BitVec.add_sub_cancel]

theorem appendInt_v {v : BitVec 8} (low : v.toNat ≤ 1) :
    appendInt 4 (v.toNat + 27) = writeInt (v + 27) := by
  have sum : (v + 27).toNat = v.toNat + 27 := by
    rw [BitVec.toNat_add]
    exact Nat.mod_eq_of_lt (by simp; omega)
  rw [writeInt, sum, appendInt, appendInt, if_neg (by omega), if_pos (by omega),
    if_neg (by omega), if_pos (by omega)]

section Read

variable {header rest : Bytes} {cs : List Bytes} {h : BlockInfo}

theorem Field.getElem? {α : Type} {i : ℕ} {read : Bytes → Option α} {value : α} {c : Bytes}
    (field : Field header i read value) (row : payload header = some (cs.flatten ++ rest))
    (written : ∀ c ∈ cs, IsItem c) (inside : i < cs.length)
    (unique : ∀ {c'}, IsItem c' → read c' = some value → c' = c) : cs[i]? = some c := by
  rw [Field, item_of_row row written inside, Option.bind_eq_some_iff] at field
  obtain ⟨c', found, read⟩ := field
  rw [found, unique (written c' (List.mem_of_getElem? found)) read]

/-- A header was read from its fields, but for the item of its extra data. -/
theorem row_of_populate (read : populate header = some h) (low : h.signature.v.toNat ≤ 1) :
    ∃ c rest, IsItem c ∧ toBytes c = some h.extraData ∧
      (∀ c' ∈ h.frontFields ++ c :: (h.versionFields ++ h.signatureFields), IsItem c') ∧
      payload header =
        some ((h.frontFields ++ c :: (h.versionFields ++ h.signatureFields)).flatten ++ rest) := by
  obtain ⟨⟨h0, h1, h2, h3, h4, h5, h6⟩, ⟨h7, h8, h9, h10, h11⟩, h12, ⟨h13, h14, h15⟩, h16, h17,
    h18⟩ := populate_eq_some_iff.mp read
  -- The last item is there, so all of them are.
  obtain ⟨c18, found18, read18⟩ := Option.bind_eq_some_iff.mp h18
  obtain ⟨cs, rest, count, written, row⟩ := item_eq_some found18 (ne_nil_of_readInt read18)
  rw [Field, item_of_row row written (by omega), Option.bind_eq_some_iff] at h12
  obtain ⟨c, found, bytes⟩ := h12
  have hash {bits : ℕ} {i : ℕ} {value : BitVec bits} (field : Field header i (readHash bits) value)
      (whole : 8 * (bits / 8) = bits) (inside : i < 19) : cs[i]? = some (writeHash value) :=
    field.getElem? row written (by omega) (eq_writeHash whole)
  have int {bits : ℕ} {i : ℕ} {value : BitVec bits} (field : Field header i (readInt bits) value)
      (whole : 8 * (bits / 8) = bits) (inside : i < 19) : cs[i]? = some (writeInt value) :=
    field.getElem? row written (by omega) (eq_writeInt whole)
  have same : cs = h.frontFields ++ c :: (h.versionFields ++ h.signatureFields) := by
    refine List.ext_getElem? fun i => ?_
    by_cases inside : i < 19
    · rw [signatureFields, appendInt_v low]
      interval_cases i
      exacts [hash h0 rfl inside, hash h1 rfl inside, hash h2 rfl inside, hash h3 rfl inside,
        hash h4 rfl inside, hash h5 rfl inside, hash h6 rfl inside, int h7 rfl inside,
        int h8 rfl inside, int h9 rfl inside, int h10 rfl inside, int h11 rfl inside, found,
        int h13 rfl inside, int h14 rfl inside, int h15 rfl inside, int h16 rfl inside,
        int h17 rfl inside, int h18 rfl inside]
    · rw [List.getElem?_eq_none (by omega), List.getElem?_eq_none (Nat.not_lt.mp inside)]
  rw [same] at row written
  exact ⟨c, rest, written c (by simp), bytes, written, row⟩

end Read

section Written

variable {header rest : Bytes} {h : BlockInfo}

theorem isItem_fields {c : Bytes} (extra : IsItem c) (low : h.signature.v.toNat ≤ 1) :
    ∀ c' ∈ h.frontFields ++ c :: (h.versionFields ++ h.signatureFields), IsItem c' := by
  have word (value : BitVec 256) : IsItem (writeInt value) := isItem_writeInt rfl (by decide) value
  have short (value : BitVec 32) : IsItem (writeInt value) := isItem_writeInt rfl (by decide) value
  have byte (value : BitVec 8) : IsItem (writeInt value) := isItem_writeInt rfl (by decide) value
  have hash (value : BitVec 256) : IsItem (writeHash value) := isItem_writeHash (by decide) value
  have author : IsItem (writeHash h.author) := isItem_writeHash (by decide) _
  have bloom : IsItem (writeHash h.logBloom) := isItem_writeHash (by decide) _
  rw [signatureFields, appendInt_v low]
  simp [frontFields, versionFields, word, short, byte, hash, author, bloom, extra]

theorem Field.of_item {α : Type} {i : ℕ} {read : Bytes → Option α} {value : α} {c : Bytes}
    (found : item header i = some c) (reads : read c = some value) :
    Field header i read value := by
  rw [Field, found, Option.bind_some, reads]

theorem populate_of_row (low : h.signature.v.toNat ≤ 1) (fits : h.extraData.length < tooLarge)
    (row : payload header = some ((h.streamRLPFields ++ h.signatureFields).flatten ++ rest)) :
    populate header = some h := by
  have written := isItem_fields (.data h.extraData fits) low
  rw [streamRLPFields, List.append_assoc, List.cons_append] at row
  rw [signatureFields, appendInt_v low] at row written
  have found (i : ℕ) (inside : i < 19) := item_of_row row written (i := i) inside
  have hash {bits i : ℕ} {value : BitVec bits} (there : item header i = some (writeHash value))
      (whole : 8 * (bits / 8) = bits) (size : bits / 8 < tooLarge) :
      Field header i (readHash bits) value :=
    .of_item there (readHash_writeHash whole size value)
  have int {bits i : ℕ} {value : BitVec bits} (there : item header i = some (writeInt value))
      (whole : 8 * (bits / 8) = bits) (size : bits / 8 < tooLarge) :
      Field header i (readInt bits) value :=
    .of_item there (readInt_writeInt whole size value)
  rw [populate_eq_some_iff]
  refine ⟨⟨?_, ?_, ?_, ?_, ?_, ?_, ?_⟩, ⟨?_, ?_, ?_, ?_, ?_⟩, ?_, ⟨?_, ?_, ?_⟩, ?_, ?_, ?_⟩
  · exact hash (found 0 (by decide)) rfl (by decide)
  · exact hash (found 1 (by decide)) rfl (by decide)
  · exact hash (found 2 (by decide)) rfl (by decide)
  · exact hash (found 3 (by decide)) rfl (by decide)
  · exact hash (found 4 (by decide)) rfl (by decide)
  · exact hash (found 5 (by decide)) rfl (by decide)
  · exact hash (found 6 (by decide)) rfl (by decide)
  · exact int (found 7 (by decide)) rfl (by decide)
  · exact int (found 8 (by decide)) rfl (by decide)
  · exact int (found 9 (by decide)) rfl (by decide)
  · exact int (found 10 (by decide)) rfl (by decide)
  · exact int (found 11 (by decide)) rfl (by decide)
  · exact .of_item (found 12 (by decide)) (toBytes_append fits)
  · exact int (found 13 (by decide)) rfl (by decide)
  · exact int (found 14 (by decide)) rfl (by decide)
  · exact int (found 15 (by decide)) rfl (by decide)
  · exact int (found 16 (by decide)) rfl (by decide)
  · exact int (found 17 (by decide)) rfl (by decide)
  · exact int (found 18 (by decide)) rfl (by decide)

theorem length_fields_le (low : h.signature.v.toNat ≤ 1) :
    (h.streamRLPFields ++ h.signatureFields).flatten.length ≤ 2000 + h.extraData.length := by
  have hashes (value : BitVec 256) : (writeHash value).length ≤ 41 := length_writeHash_le value
  have words (value : BitVec 256) : (writeInt value).length ≤ 41 := length_writeInt_le rfl value
  have shorts (value : BitVec 32) : (writeInt value).length ≤ 41 :=
    (length_writeInt_le rfl value).trans (by decide)
  have byte : (writeInt (h.signature.v + 27)).length ≤ 10 := length_writeInt_le rfl _
  have author : (writeHash h.author).length ≤ 29 := length_writeHash_le _
  have bloom : (writeHash h.logBloom).length ≤ 265 := length_writeHash_le _
  have extra := length_append_le h.extraData
  rw [signatureFields, appendInt_v low, streamRLPFields]
  simp only [frontFields, versionFields, List.flatten_append, List.flatten_cons,
    List.length_append, List.flatten_nil, List.length_nil]
  linarith [hashes h.parentHash, hashes h.sha3Uncles, hashes h.stateRoot,
    hashes h.transactionsRoot, hashes h.receiptsRoot, words h.difficulty, words h.number,
    words h.gasLimit, words h.gasUsed, words h.timestamp, shorts h.runningVersion,
    shorts h.hardforkVersion, shorts h.hardforkTime, words h.signature.r, words h.signature.s]

end Written

/-- Whether the bytes of a header are a list of nineteen items with a string for extra data. -/
def IsCanonical (header : Bytes) : Prop :=
  isList header = true ∧ itemCount header = some 19 ∧ (item header 12).any isData = true

instance (header : Bytes) : Decidable (IsCanonical header) := by
  unfold IsCanonical
  infer_instance

section Canonical

variable {sha3 : Bytes → Hash} {header rest c : Bytes} {h : BlockInfo} {hash : Hash}

theorem ofHeaderData_streamRLP (low : h.signature.v.toNat ≤ 1)
    (fits : h.extraData.length < 2 ^ 63) :
    ofHeaderData sha3 h.streamRLP = some (h, h.hashWithSeal sha3) := by
  have size : (h.streamRLPFields ++ h.signatureFields).flatten.length < tooLarge :=
    lt_of_le_of_lt (length_fields_le low) (by unfold tooLarge; omega)
  have row : payload h.streamRLP =
      some ((h.streamRLPFields ++ h.signatureFields).flatten ++ []) := by
    rw [streamRLP, payload_appendList size, List.append_nil]
  have read := populate_of_row low (by unfold tooLarge; omega) row
  have whole : isWhole h.streamRLP = true := isWhole_of_isItem (.list _ size)
  rw [ofHeaderData, if_pos whole, read, Option.map_some, hashWithSeal]

theorem ofHeaderData_eq_some (accepted : ofHeaderData sha3 header = some (h, hash)) :
    isWhole header = true ∧ populate header = some h := by
  unfold ofHeaderData at accepted
  split at accepted
  · next whole =>
    obtain ⟨read, found, same⟩ := Option.map_eq_some_iff.mp accepted
    exact ⟨whole, by rw [found, ← (Prod.mk.inj same).1]⟩
  · cases accepted

theorem isData_of_flatten_eq {front back : List Bytes} (extra : IsItem c)
    (bytes : toBytes c = some h.extraData)
    (same : (front ++ append h.extraData :: back).flatten = (front ++ c :: back).flatten ++ rest) :
    isData c = true := by
  obtain ⟨data, -⟩ | ⟨-, nothing⟩ := eq_append_of_toBytes extra bytes
  · exact data
  · -- The empty string is one byte, which is then the first byte of the item.
    obtain ⟨n, tail, rfl⟩ := List.exists_cons_of_ne_nil extra.ne_nil
    rw [nothing, List.flatten_append, List.flatten_append, List.append_assoc,
      List.append_cancel_left_eq] at same
    have first : 0x80 = n := (List.cons.inj same).1
    rw [← first]
    rfl

theorem length_append_extra_le (extra : IsItem c) (bytes : toBytes c = some h.extraData) :
    (append h.extraData).length ≤ c.length := by
  obtain ⟨-, -, rfl⟩ | ⟨-, nothing⟩ := eq_append_of_toBytes extra bytes
  · exact le_rfl
  · rw [nothing]
    exact List.length_pos_of_ne_nil extra.ne_nil

/-- Bytes that a header is read from are its encoding where they are canonical. -/
theorem streamRLP_eq_iff (accepted : ofHeaderData sha3 header = some (h, hash))
    (low : h.signature.v.toNat ≤ 1) : h.streamRLP = header ↔ IsCanonical header := by
  -- The nineteen fields are written back, so what may differ is their form and a rest.
  obtain ⟨whole, read⟩ := ofHeaderData_eq_some accepted
  obtain ⟨c, rest, extra, bytes, written, row⟩ := row_of_populate read low
  have present : header ≠ [] := by
    rintro rfl
    have least := length_le_flatten written
    have nothing : [] = _ ++ rest := Option.some.inj row
    rw [(List.append_eq_nil_iff.mp nothing.symm).1] at least
    exact absurd least (by simp)
  have one : IsItem header := isItem_of_isWhole whole present
  have at12 : item header 12 = some c := item_of_row row written (show 12 < 19 by decide)
  have count : isList header = true → (itemCount header = some 19 ↔ rest = []) :=
    fun list => itemCount_eq_length list row written
  have fields : h.streamRLPFields ++ h.signatureFields =
      h.frontFields ++ append h.extraData :: (h.versionFields ++ h.signatureFields) := by
    rw [streamRLPFields, List.append_assoc, List.cons_append]
  constructor
  · intro same
    have size : (h.streamRLPFields ++ h.signatureFields).flatten.length < tooLarge := by
      have total := length_payload_lt one row
      have shorter := length_append_extra_le extra bytes
      rw [fields]
      simp only [List.flatten_append, List.flatten_cons, List.length_append] at total ⊢
      omega
    have list : isList header = true := by
      rw [← same]
      exact isList_appendList size
    have again := payload_appendList size
    rw [← streamRLP, same, row, Option.some.injEq, fields] at again
    have data : isData c = true := isData_of_flatten_eq extra bytes again.symm
    refine ⟨list, (count list).mpr ?_, by rw [at12, Option.any_some, data]⟩
    obtain ⟨-, -, rfl⟩ | ⟨other, -⟩ := eq_append_of_toBytes extra bytes
    · exact List.append_right_eq_self.mp again
    · rw [data] at other
      cases other
  · rintro ⟨list, nineteen, data⟩
    rw [at12, Option.any_some] at data
    obtain rfl := (count list).mp nineteen
    rw [List.append_nil] at row
    obtain ⟨-, -, rfl⟩ | ⟨other, -⟩ := eq_append_of_toBytes extra bytes
    · rw [streamRLP, fields, ← eq_appendList one list row]
    · rw [data] at other
      cases other

end Canonical

end BlockInfo

open BlockInfo

/-- A header reads back from its encoding, and bytes that a header is read from are its encoding
where they are a list of nineteen items with a string for extra data. -/
theorem header_rlp_canonical (sha3 : Bytes → Hash) :
    (∀ h : BlockInfo, h.signature.v.toNat ≤ 1 → h.extraData.length < 2 ^ 63 →
      ofHeaderData sha3 h.streamRLP = some (h, h.hashWithSeal sha3)) ∧
    (∀ header h hash, ofHeaderData sha3 header = some (h, hash) → h.signature.v.toNat ≤ 1 →
      (h.streamRLP = header ↔ IsCanonical header)) ∧
    ∀ header other h hash hash', ofHeaderData sha3 header = some (h, hash) →
      ofHeaderData sha3 other = some (h, hash') → h.signature.v.toNat ≤ 1 →
      IsCanonical header → IsCanonical other → header = other ∧ hash = hash' := by
  refine ⟨fun h low fits => ofHeaderData_streamRLP low fits,
    fun header h hash accepted low => streamRLP_eq_iff accepted low, ?_⟩
  intro header other h hash hash' accepted accepted' low canonical canonical'
  have same : header = other :=
    ((streamRLP_eq_iff accepted low).mpr canonical).symm.trans
      ((streamRLP_eq_iff accepted' low).mpr canonical')
  subst same
  rw [accepted] at accepted'
  exact ⟨rfl, (Prod.mk.inj (Option.some.inj accepted')).2⟩

/-- A signed header with a number, an author, versions and extra data is read back from its
encoding,
and no other canonical bytes are read as it. -/
theorem header_rlp_canonical_sample :
    let h : BlockInfo := { BlockInfo.blank with
      author := 5, number := 7, gasLimit := 3000000, timestamp := 1513580387
      extraData := [1, 2, 3], runningVersion := 1, hardforkTime := 9, signature := ⟨1, 2, 1⟩ }
    let sha3 : Bytes → Hash := fun bytes => bytes.length
    ofHeaderData sha3 h.streamRLP = some (h, h.hashWithSeal sha3) ∧ IsCanonical h.streamRLP ∧
      ∀ other hash, ofHeaderData sha3 other = some (h, hash) → IsCanonical other →
        other = h.streamRLP ∧ hash = h.hashWithSeal sha3 := by
  intro h sha3
  have read : ofHeaderData sha3 h.streamRLP = some (h, h.hashWithSeal sha3) :=
    (header_rlp_canonical sha3).1 h (by decide) (by decide)
  have canonical : IsCanonical h.streamRLP :=
    ((header_rlp_canonical sha3).2.1 _ h _ read (by decide)).mp rfl
  exact ⟨read, canonical, fun other hash accepted canonical' =>
    (header_rlp_canonical sha3).2.2 _ _ h _ _ accepted read (by decide) canonical' canonical⟩

/-- A header with one more item, a header that is a string, and a header with a list for extra data
are all read like the header that was signed, with other hashes. -/
theorem altered_headers_accepted :
    let h : BlockInfo := { BlockInfo.blank with signature := ⟨1, 1, 0⟩ }
    let sha3 : Bytes → Hash := fun bytes => .ofNat 256 (bytes.map UInt8.toNat).sum
    let fields := (h.streamRLPFields ++ h.signatureFields).flatten
    let longer := appendList (fields ++ [0x80])
    let string := append fields
    let nested := appendList
      (h.frontFields ++ appendList [] :: (h.versionFields ++ h.signatureFields)).flatten
    [longer, string, nested].all (fun header => header != h.streamRLP &&
      sha3 header != h.hashWithSeal sha3 &&
      ofHeaderData sha3 header = some (h, sha3 header)) = true := by
  decide +kernel

end Etiam
