import Etiam.Block.Seal

/-! Header objects, which remember their hashes and their producer: what is remembered is right as
long as nothing changes under it. -/

namespace Etiam

open Rlp

/-- What header objects rely on: the hash, signing, and finding the key of a signature. -/
structure HeaderCrypto where
  sha3 : Bytes → Hash
  sign : Hash → Hash → Signature
  /-- The key that made a signature of a hash, nothing where that is the null key. -/
  recover : Signature → Hash → Option Bytes

/-- The parts of a header that are hashed. -/
inductive IncludeSeal
  | withoutSeal
  | withSeal
  | onlySeal

/-- The last twenty bytes of a hash. -/
def right160 (hash : Hash) : Address := hash.setWidth 160

namespace BlockInfo

/-- The hash of a header, computed from its fields and its signature. -/
def computeHash (crypto : HeaderCrypto) (h : BlockInfo) : IncludeSeal → Hash
  | .withoutSeal => h.hashWithoutSeal crypto.sha3
  | .withSeal => h.hashWithSeal crypto.sha3
  | .onlySeal => crypto.sha3 h.signatureFields.flatten

/-- The producer of a header, computed from its fields and its signature. -/
def computeProducer (crypto : HeaderCrypto) (h : BlockInfo) : Option Address :=
  (crypto.recover h.signature (h.computeHash crypto .withoutSeal)).map fun key =>
    right160 (crypto.sha3 key)

/-- The fields of a header object that nothing was put into. -/
def unset : BlockInfo := { blank with timestamp := .allOnes 256 }

/-- The fields of a header object that was cleared. -/
def cleared (crypto : HeaderCrypto) : BlockInfo :=
  { unset with
    sha3Uncles := crypto.sha3 (appendList [])
    stateRoot := crypto.sha3 (append [])
    transactionsRoot := crypto.sha3 (append [])
    receiptsRoot := crypto.sha3 (append []) }

end BlockInfo

/-- A header object: its fields, and what it remembers, with zero for what it does not. -/
structure HeaderObject where
  info : BlockInfo
  memoHash : Hash := 0
  memoHashWithout : Hash := 0
  memoProducer : Address := 0

/-- The setters that make a header object forget its hashes. -/
inductive Setter
  | setParentHash (v : Hash)
  | setSha3Uncles (v : Hash)
  | setTimestamp (v : U256)
  | setAuthor (v : Address)
  | setRoots (t r u s : Hash)
  | setGasUsed (v : U256)
  | setNumber (v : U256)
  | setGasLimit (v : U256)
  | setExtraData (v : Bytes)
  | setLogBloom (v : LogBloom)
  | setDifficulty (v : U256)
  /-- The seal is neither hashed nor written. -/
  | setSeal

/-- The fields after a setter. -/
def Setter.apply (h : BlockInfo) : Setter → BlockInfo
  | .setParentHash v => { h with parentHash := v }
  | .setSha3Uncles v => { h with sha3Uncles := v }
  | .setTimestamp v => { h with timestamp := v }
  | .setAuthor v => { h with author := v }
  | .setRoots t r u s =>
    { h with transactionsRoot := t, receiptsRoot := r, stateRoot := s, sha3Uncles := u }
  | .setGasUsed v => { h with gasUsed := v }
  | .setNumber v => { h with number := v }
  | .setGasLimit v => { h with gasLimit := v }
  | .setExtraData v => { h with extraData := v }
  | .setLogBloom v => { h with logBloom := v }
  | .setDifficulty v => { h with difficulty := v }
  | .setSeal => h

/-- Whether bytes are a header or a whole block. -/
inductive BlockDataType
  | headerData
  | blockData

/-- The header of a block, which has to consist of three lists. -/
def extractHeader (block : Bytes) : Option Bytes :=
  if isWhole block && isList block then do
    let header ← item block 0
    let transactions ← item block 1
    let uncles ← item block 2
    if isList header && isList transactions && isList uncles then some header else none
  else none

/-- The bytes of a header in given bytes. -/
def headerBytes (data : Bytes) : BlockDataType → Option Bytes
  | .headerData => if isWhole data then some data else none
  | .blockData => extractHeader data

namespace HeaderObject

section Operations

variable (crypto : HeaderCrypto) (o : HeaderObject)

/-- The hash that an object gives, and the object after it was asked. -/
def hash : IncludeSeal → Hash × HeaderObject
  | .withSeal =>
    let memo := if o.memoHash = 0 then o.info.computeHash crypto .withSeal else o.memoHash
    (memo, { o with memoHash := memo })
  | .withoutSeal =>
    let memo := if o.memoHashWithout = 0 then o.info.computeHash crypto .withoutSeal
      else o.memoHashWithout
    (memo, { o with memoHashWithout := memo })
  | .onlySeal => (o.info.computeHash crypto .onlySeal, o)

/-- The producer that an object gives, nothing where it throws, and the object after it was
asked. -/
def producer : Option Address × HeaderObject :=
  if o.memoProducer = 0 then
    let (hash, o) := o.hash crypto .withoutSeal
    match crypto.recover o.info.signature hash with
    | none => (none, o)
    | some key =>
      let producer := right160 (crypto.sha3 key)
      (some producer, { o with memoProducer := producer })
  else (some o.memoProducer, o)

/-- Make an object from bytes, with a hash that may be given. -/
def construct (data : Bytes) (bdt : BlockDataType) (hashWith : Hash) : Option HeaderObject := do
  let header ← headerBytes data bdt
  let info ← BlockInfo.populate header
  return { info, memoHash := if hashWith = 0 then crypto.sha3 header else hashWith }

/-- A new object like another one, which does not take over the producer. -/
def copy : HeaderObject := { o with memoProducer := 0 }

/-- Assign another object to an object, which keeps the producer that it remembers. -/
def assign (other : HeaderObject) : HeaderObject := { other with memoProducer := o.memoProducer }

/-- Change fields and forget the hashes. -/
def dirty (info : BlockInfo) : HeaderObject := { info, memoProducer := o.memoProducer }

/-- Change fields and forget nothing. -/
def silent (info : BlockInfo) : HeaderObject := { o with info }

/-- The fields that are taken over from a parent, with the hash that it remembers. -/
def populateFromParent (parent : HeaderObject) : BlockInfo :=
  { o.info with
    stateRoot := parent.info.stateRoot
    number := parent.info.number + 1
    parentHash := parent.memoHash
    gasLimit := parent.info.gasLimit
    difficulty := 1
    gasUsed := 0 }

/-- The fields with a new signature, where that is valid. -/
def signed (secret : Hash) : BlockInfo :=
  let sig := crypto.sign secret (o.hash crypto .withoutSeal).1
  if sig.isValid then { o.info with signature := sig } else o.info

/-- Sign with a key. -/
def sign (secret : Hash) : HeaderObject :=
  silent (o.hash crypto .withoutSeal).2 (o.signed crypto secret)

end Operations

end HeaderObject

/-- What is done with header objects, which are told apart by numbers. -/
inductive HeaderOp
  | default (i : ℕ)
  | construct (i : ℕ) (data : Bytes) (bdt : BlockDataType) (hashWith : Hash)
  | copy (i j : ℕ)
  | assign (i j : ℕ)
  | set (i : ℕ) (setter : Setter)
  | runningVersion (i : ℕ) (v : U32)
  | hardforkVote (i : ℕ) (version time : U32)
  | clear (i : ℕ)
  | populateFromParent (i j : ℕ)
  | sign (i : ℕ) (secret : Hash)
  | hash (i : ℕ) (part : IncludeSeal)
  | producer (i : ℕ)

/-- Header objects by their numbers. -/
abbrev Headers := ℕ → HeaderObject

namespace Headers

/-- Objects that nothing was put into. -/
def start : Headers := fun _ => { info := .unset }

variable (crypto : HeaderCrypto)

/-- The objects after an operation. -/
def step (s : Headers) : HeaderOp → Headers
  | .default i => Function.update s i { info := .unset }
  | .construct i data bdt hashWith =>
    -- A constructor that throws leaves no object, and the one from before stays.
    Function.update s i ((HeaderObject.construct crypto data bdt hashWith).getD (s i))
  | .copy i j => Function.update s i (s j).copy
  | .assign i j => if i = j then s else Function.update s i ((s i).assign (s j))
  | .set i setter => Function.update s i ((s i).dirty (setter.apply (s i).info))
  | .runningVersion i v =>
    Function.update s i ((s i).silent { (s i).info with runningVersion := v })
  | .hardforkVote i version time =>
    Function.update s i
      ((s i).silent { (s i).info with hardforkVersion := version, hardforkTime := time })
  | .clear i => Function.update s i ((s i).dirty (.cleared crypto))
  | .populateFromParent i j =>
    Function.update s i ((s i).silent ((s i).populateFromParent (s j)))
  | .sign i secret => Function.update s i ((s i).sign crypto secret)
  | .hash i part => Function.update s i ((s i).hash crypto part).2
  | .producer i => Function.update s i ((s i).producer crypto).2

/-- The objects after operations one after another. -/
def run (s : Headers) (ops : List HeaderOp) : Headers := ops.foldl (step crypto) s

end Headers

namespace HeaderObject

variable (crypto : HeaderCrypto)

/-- An object gives what would be computed. -/
structure Faithful (o : HeaderObject) : Prop where
  hash : ∀ part, (o.hash crypto part).1 = o.info.computeHash crypto part
  producer : (o.producer crypto).1 = o.info.computeProducer crypto

/-- New fields do not change the hash that an object remembers, if it does. -/
def KeepsHash (o : HeaderObject) (info : BlockInfo) : Prop :=
  o.memoHash = 0 ∨ info.computeHash crypto .withSeal = o.info.computeHash crypto .withSeal

/-- New fields do not change the hash without the signature that an object remembers. -/
def KeepsHashWithout (o : HeaderObject) (info : BlockInfo) : Prop :=
  o.memoHashWithout = 0 ∨
    info.computeHash crypto .withoutSeal = o.info.computeHash crypto .withoutSeal

/-- New fields do not change the producer that an object remembers. -/
def KeepsProducer (o : HeaderObject) (info : BlockInfo) : Prop :=
  o.memoProducer = 0 ∨ info.computeProducer crypto = o.info.computeProducer crypto

/-- Bytes whose header, once read and written again, has the hash that it is given. -/
def Matches (data : Bytes) (bdt : BlockDataType) (hashWith : Hash) : Prop :=
  ∀ header info, headerBytes data bdt = some header → BlockInfo.populate header = some info →
    let given := if hashWith = 0 then crypto.sha3 header else hashWith
    given = 0 ∨ given = info.computeHash crypto .withSeal

/-- What is remembered is what would be computed. -/
structure Fresh (o : HeaderObject) : Prop where
  hash : o.memoHash = 0 ∨ o.memoHash = o.info.computeHash crypto .withSeal
  hashWithout : o.memoHashWithout = 0 ∨
    o.memoHashWithout = o.info.computeHash crypto .withoutSeal
  producer : o.memoProducer = 0 ∨ o.info.computeProducer crypto = some o.memoProducer

variable {crypto} {o : HeaderObject}

theorem memo_eq_iff {α : Type} [DecidableEq α] {memo zero value : α} :
    (if memo = zero then value else memo) = value ↔ memo = zero ∨ memo = value := by
  split <;> simp_all

/-- An object gives what would be computed exactly if it remembers nothing else. -/
theorem faithful_iff_fresh : o.Faithful crypto ↔ o.Fresh crypto := by
  constructor
  · intro faithful
    have producer := faithful.producer
    refine ⟨memo_eq_iff.mp (faithful.hash .withSeal), memo_eq_iff.mp (faithful.hash .withoutSeal),
      ?_⟩
    by_cases none : o.memoProducer = 0
    · exact .inl none
    · rw [HeaderObject.producer, if_neg none] at producer
      exact .inr producer.symm
  · intro fresh
    have hashes : ∀ part, (o.hash crypto part).1 = o.info.computeHash crypto part := by
      intro part
      cases part with
      | withoutSeal => exact memo_eq_iff.mpr fresh.hashWithout
      | withSeal => exact memo_eq_iff.mpr fresh.hash
      | onlySeal => rfl
    refine ⟨hashes, ?_⟩
    by_cases none : o.memoProducer = 0
    · have same := hashes .withoutSeal
      rw [HeaderObject.producer, if_pos none, BlockInfo.computeProducer, ← same]
      dsimp only
      rw [show (o.hash crypto .withoutSeal).2.info = o.info from rfl]
      cases crypto.recover o.info.signature (o.hash crypto .withoutSeal).1 <;> rfl
    · rw [HeaderObject.producer, if_neg none]
      exact (fresh.producer.resolve_left none).symm

theorem memo_kept_iff {α : Type} {memo zero old new : α} (right : memo = zero ∨ memo = old) :
    memo = zero ∨ memo = new ↔ memo = zero ∨ new = old := by
  by_cases none : memo = zero
  · simp [none]
  · obtain rfl := right.resolve_left none
    simp only [none, false_or]
    exact eq_comm

section

variable (fresh : o.Fresh crypto)

include fresh

theorem producer_kept_iff (info : BlockInfo) :
    o.memoProducer = 0 ∨ info.computeProducer crypto = some o.memoProducer ↔
      o.KeepsProducer crypto info := by
  unfold KeepsProducer
  by_cases none : o.memoProducer = 0
  · simp [none]
  · rw [fresh.producer.resolve_left none]

theorem fresh_dirty_iff (info : BlockInfo) :
    (o.dirty info).Fresh crypto ↔ o.KeepsProducer crypto info := by
  rw [← producer_kept_iff fresh]
  exact ⟨fun after => after.producer, fun kept => ⟨.inl rfl, .inl rfl, kept⟩⟩

theorem fresh_silent_iff (info : BlockInfo) :
    (o.silent info).Fresh crypto ↔
      o.KeepsHash crypto info ∧ o.KeepsHashWithout crypto info ∧ o.KeepsProducer crypto info := by
  unfold KeepsHash KeepsHashWithout
  rw [← producer_kept_iff fresh, ← memo_kept_iff fresh.hash, ← memo_kept_iff fresh.hashWithout]
  exact ⟨fun after => ⟨after.hash, after.hashWithout, after.producer⟩,
    fun kept => ⟨kept.1, kept.2.1, kept.2.2⟩⟩

theorem fresh_assign_iff {other : HeaderObject} (right : other.Fresh crypto) :
    (o.assign other).Fresh crypto ↔ o.KeepsProducer crypto other.info := by
  rw [← producer_kept_iff fresh]
  exact ⟨fun after => after.producer, fun kept => ⟨right.hash, right.hashWithout, kept⟩⟩

theorem Fresh.hash_after (part : IncludeSeal) : (o.hash crypto part).2.Fresh crypto := by
  cases part with
  | withoutSeal =>
    exact ⟨fresh.hash, .inr (memo_eq_iff.mpr fresh.hashWithout), fresh.producer⟩
  | withSeal => exact ⟨.inr (memo_eq_iff.mpr fresh.hash), fresh.hashWithout, fresh.producer⟩
  | onlySeal => exact fresh

theorem Fresh.producer_after : (o.producer crypto).2.Fresh crypto := by
  unfold HeaderObject.producer
  split
  · have asked := fresh.hash_after .withoutSeal
    have same := (faithful_iff_fresh.mpr fresh).hash .withoutSeal
    dsimp only
    split
    · exact asked
    · next key found =>
      refine ⟨asked.hash, asked.hashWithout, .inr ?_⟩
      rw [same] at found
      show (crypto.recover o.info.signature (o.info.computeHash crypto .withoutSeal)).map _ = _
      rw [show o.info.signature = (o.hash crypto .withoutSeal).2.info.signature from rfl, found]
      rfl
  · exact fresh

end

theorem computeHash_signed (secret : Hash) :
    (o.signed crypto secret).computeHash crypto .withoutSeal =
      o.info.computeHash crypto .withoutSeal := by
  unfold signed
  dsimp only
  split <;> rfl

theorem fresh_sign_iff (fresh : o.Fresh crypto) (secret : Hash) :
    (o.sign crypto secret).Fresh crypto ↔
      o.KeepsHash crypto (o.signed crypto secret) ∧
        o.KeepsProducer crypto (o.signed crypto secret) := by
  rw [sign, fresh_silent_iff (fresh.hash_after .withoutSeal)]
  have without : (o.hash crypto .withoutSeal).2.KeepsHashWithout crypto (o.signed crypto secret) :=
    .inr (computeHash_signed secret)
  exact ⟨fun all => ⟨all.1, all.2.2⟩, fun both => ⟨both.1, without, both.2⟩⟩

theorem fresh_construct_iff (fresh : o.Fresh crypto) (data : Bytes) (bdt : BlockDataType)
    (hashWith : Hash) :
    ((construct crypto data bdt hashWith).getD o).Fresh crypto ↔
      Matches crypto data bdt hashWith := by
  unfold construct Matches
  cases found : headerBytes data bdt with
  | none => simp [fresh]
  | some header =>
    cases read : BlockInfo.populate header with
    | none =>
      simp only [Option.bind_eq_bind, Option.bind_some, read, Option.bind_none, Option.getD_none]
      refine iff_of_true fresh ?_
      rintro _ info ⟨⟩ other
      cases read.symm.trans other
    | some info =>
      simp only [Option.pure_def, Option.bind_eq_bind, Option.bind_some, read, Option.getD_some]
      constructor
      · rintro after _ _ ⟨⟩ same
        cases Option.some.inj (read.symm.trans same)
        exact after.hash
      · intro right
        exact ⟨right header info rfl read, .inl rfl, .inl rfl⟩

/-- Canonical bytes of a header, with no hash given, are those that the hash is computed of. -/
theorem matches_of_canonical {data : Bytes} (canonical : BlockInfo.IsCanonical data)
    (low : ∀ info, BlockInfo.populate data = some info → info.signature.v.toNat ≤ 1) :
    Matches crypto data .headerData 0 := by
  intro header info found read
  rw [headerBytes] at found
  split at found
  · next whole =>
    obtain rfl := Option.some.inj found
    have made : BlockInfo.ofHeaderData crypto.sha3 data = some (info, crypto.sha3 data) := by
      rw [BlockInfo.ofHeaderData, if_pos whole, read, Option.map_some]
    have same := (BlockInfo.streamRLP_eq_iff made (low info read)).mpr canonical
    exact .inr (congrArg crypto.sha3 same.symm)
  · cases found

end HeaderObject

namespace Headers

open HeaderObject

variable (crypto : HeaderCrypto)

/-- An operation that leaves no value remembered that it changes. -/
def Careful (s : Headers) : HeaderOp → Prop
  | .construct _ data bdt hashWith => Matches crypto data bdt hashWith
  | .assign i j => i = j ∨ (s i).KeepsProducer crypto (s j).info
  | .set i setter => (s i).KeepsProducer crypto (setter.apply (s i).info)
  | .runningVersion i v =>
    let info := { (s i).info with runningVersion := v }
    (s i).KeepsHash crypto info ∧ (s i).KeepsHashWithout crypto info ∧
      (s i).KeepsProducer crypto info
  | .hardforkVote i version time =>
    let info := { (s i).info with hardforkVersion := version, hardforkTime := time }
    (s i).KeepsHash crypto info ∧ (s i).KeepsHashWithout crypto info ∧
      (s i).KeepsProducer crypto info
  | .clear i => (s i).KeepsProducer crypto (.cleared crypto)
  | .populateFromParent i j =>
    let info := (s i).populateFromParent (s j)
    (s i).KeepsHash crypto info ∧ (s i).KeepsHashWithout crypto info ∧
      (s i).KeepsProducer crypto info
  | .sign i secret =>
    let info := (s i).signed crypto secret
    (s i).KeepsHash crypto info ∧ (s i).KeepsProducer crypto info
  | .default _ | .copy _ _ | .hash _ _ | .producer _ => True

/-- Every operation of a run is careful where it happens. -/
def CarefulRun : Headers → List HeaderOp → Prop
  | _, [] => True
  | s, op :: rest => s.Careful crypto op ∧ CarefulRun (s.step crypto op) rest

variable {crypto} {s : Headers}

theorem all_fresh_update {i : ℕ} {o : HeaderObject} (fresh : ∀ i, (s i).Fresh crypto) :
    (∀ k, (Function.update s i o k).Fresh crypto) ↔ o.Fresh crypto := by
  constructor
  · intro all
    simpa using all i
  · intro new k
    by_cases here : k = i
    · subst here
      simpa using new
    · rw [Function.update_of_ne here]
      exact fresh k

/-- Among fresh objects, an operation leaves all fresh exactly if it is careful. -/
theorem fresh_step_iff (fresh : ∀ i, (s i).Fresh crypto) (op : HeaderOp) :
    (∀ i, (s.step crypto op i).Fresh crypto) ↔ s.Careful crypto op := by
  -- Each operation changes one object, in one of the ways described above.
  cases op with
  | default i =>
    rw [step, all_fresh_update fresh]
    exact iff_of_true ⟨.inl rfl, .inl rfl, .inl rfl⟩ trivial
  | construct i data bdt hashWith =>
    rw [step, all_fresh_update fresh, fresh_construct_iff (fresh i)]
    rfl
  | copy i j =>
    rw [step, all_fresh_update fresh]
    exact iff_of_true ⟨(fresh j).hash, (fresh j).hashWithout, .inl rfl⟩ trivial
  | assign i j =>
    by_cases same : i = j
    · rw [step, if_pos same]
      exact iff_of_true fresh (.inl same)
    · rw [step, if_neg same, all_fresh_update fresh, fresh_assign_iff (fresh i) (fresh j)]
      exact (or_iff_right same).symm
  | set i setter => rw [step, all_fresh_update fresh, fresh_dirty_iff (fresh i)]; rfl
  | runningVersion i v => rw [step, all_fresh_update fresh, fresh_silent_iff (fresh i)]; rfl
  | hardforkVote i version time =>
    rw [step, all_fresh_update fresh, fresh_silent_iff (fresh i)]
    rfl
  | clear i => rw [step, all_fresh_update fresh, fresh_dirty_iff (fresh i)]; rfl
  | populateFromParent i j =>
    rw [step, all_fresh_update fresh, fresh_silent_iff (fresh i)]
    rfl
  | sign i secret => rw [step, all_fresh_update fresh, fresh_sign_iff (fresh i)]; rfl
  | hash i part =>
    rw [step, all_fresh_update fresh]
    exact iff_of_true ((fresh i).hash_after part) trivial
  | producer i =>
    rw [step, all_fresh_update fresh]
    exact iff_of_true (fresh i).producer_after trivial

theorem fresh_run_iff (fresh : ∀ i, (s i).Fresh crypto) (ops : List HeaderOp) :
    (∀ k i, (s.run crypto (ops.take k) i).Fresh crypto) ↔ CarefulRun crypto s ops := by
  induction ops generalizing s with
  | nil => exact iff_of_true (fun k i => by rw [List.take_nil]; exact fresh i) trivial
  | cons op rest ih =>
    constructor
    · intro all
      have next : ∀ i, (s.step crypto op i).Fresh crypto := all 1
      exact ⟨(fresh_step_iff fresh op).mp next, (ih next).mp fun k => all (k + 1)⟩
    · rintro ⟨careful, others⟩ k
      have next := (fresh_step_iff fresh op).mpr careful
      cases k with
      | zero => exact fresh
      | succ k => exact (ih next).mpr others k

/-- At every point of a run, every object gives the hashes and the producer that would be computed
from its fields, exactly if no operation changes a value that an object goes on remembering. -/
theorem memos_faithful_iff_careful (crypto : HeaderCrypto) (ops : List HeaderOp) :
    (∀ k i, (start.run crypto (ops.take k) i).Faithful crypto) ↔
      CarefulRun crypto start ops := by
  simp only [faithful_iff_fresh]
  exact fresh_run_iff (fun _ => ⟨.inl rfl, .inl rfl, .inl rfl⟩) ops

/-- A hash that adds up bytes, a signature that is always the same, and a key that depends on the
hash alone. -/
def sampleCrypto : HeaderCrypto where
  sha3 bytes := .ofNat 256 (1 + (bytes.map UInt8.toNat).sum)
  sign _ _ := ⟨1, 1, 0⟩
  recover _ hash := some [.ofNat hash.toNat]

/-- A hash that was asked for before the header was signed, and a producer that was asked for
before the number was set or another header assigned, are given ever after. -/
theorem memos_stale :
    let signed := start.run sampleCrypto [.hash 0 .withSeal, .sign 0 1]
    let numbered := start.run sampleCrypto [.producer 0, .set 0 (.setNumber 5)]
    let voted := start.run sampleCrypto [.hash 0 .withoutSeal, .hardforkVote 0 1 2]
    let assigned := start.run sampleCrypto [.set 1 (.setNumber 5), .producer 0, .assign 0 1]
    ((signed 0).hash sampleCrypto .withSeal).1 ≠
        (signed 0).info.computeHash sampleCrypto .withSeal ∧
      ((numbered 0).producer sampleCrypto).1 ≠ (numbered 0).info.computeProducer sampleCrypto ∧
      ((voted 0).hash sampleCrypto .withoutSeal).1 ≠
        (voted 0).info.computeHash sampleCrypto .withoutSeal ∧
      ((assigned 0).producer sampleCrypto).1 ≠ (assigned 0).info.computeProducer sampleCrypto := by
  decide +kernel

end Headers

end Etiam
