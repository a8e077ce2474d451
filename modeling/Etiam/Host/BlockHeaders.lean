import Etiam.Chain.Canonical

/-! The headers that a peer is sent when it asks for some of the chain. -/

namespace Etiam

namespace Config

/-- The most headers that are sent at once. -/
def maxHeadersToSend : ℕ := 1024

/-- The size that a packet may have before no more headers are put into it. -/
def maxPayload : ℕ := 10 * 1024 * 1024

/-- How far below the head blocks are found by their numbers. -/
def blockNumberUsageLimit : ℕ := 1000

end Config

/-- How a request names the block that it starts from. -/
inductive BlockId
  | hash (hash : Hash)
  | number (number : ℕ)

/-- What is sent: the blocks whose headers are in the packet, and the count that it is given. -/
structure HeadersPacket where
  headers : List Hash
  itemCount : ℕ
  deriving DecidableEq

namespace BlockChain

section Requests

variable (bc : BlockChain)

/-- Follow parents a number of steps, but no further than below a number. What is left of the
steps is returned. -/
def traverseParents (limitBlock : ℕ) : ℕ → Hash → Hash × ℕ
  | 0, hash => (hash, 0)
  | step + 1, hash =>
    if (bc.details hash).number < limitBlock then (hash, step + 1)
    else traverseParents limitBlock step (bc.parent hash)

/-- The block a number of steps below another one, null if there is none. -/
def nextHash (hash : Hash) (step : ℕ) : Hash :=
  let lastBlock := bc.lastBlockNumber
  let limitBlock := if lastBlock > Config.blockNumberUsageLimit then
    lastBlock - Config.blockNumberUsageLimit else 0
  let (hash, step) := bc.traverseParents limitBlock step hash
  if step = 0 then hash
  else
    let n := bc.number hash
    if n ≥ step then bc.numberHash (n - step) else 0

/-- The block to walk back from and the headers to send, for a request that goes up from a block
given by its hash. -/
def topByHash (blockHash : Hash) (numHeadersToSend step : ℕ) : Hash × ℕ :=
  if !bc.isKnown blockHash true then (0, numHeadersToSend)
  else
    let n := bc.number blockHash
    if numHeadersToSend = 0 then (0, numHeadersToSend)
    else if n ≠ 0 ∨ blockHash = bc.genesisHash then
      let top := n + step * numHeadersToSend - 1
      let lastBlock := bc.lastBlockNumber
      if top > lastBlock then
        let numHeadersToSend := (lastBlock - n) / step + 1
        (bc.numberHash (n + step * (numHeadersToSend - 1)), numHeadersToSend)
      else (bc.numberHash top, numHeadersToSend)
    else (0, numHeadersToSend)

/-- The same for a block given by its number. -/
def topByNumber (n numHeadersToSend step : ℕ) : Hash × ℕ :=
  let lastBlock := bc.lastBlockNumber
  if n > lastBlock ∨ numHeadersToSend = 0 then (0, numHeadersToSend)
  else
    let top := n + step * (numHeadersToSend - 1)
    if top > lastBlock then
      let numHeadersToSend := (lastBlock - n) / step + 1
      (bc.numberHash (n + step * (numHeadersToSend - 1)), numHeadersToSend)
    else (bc.numberHash top, numHeadersToSend)

/-- The block to walk back from, and the headers to send. -/
def startBlock (blockId : BlockId) (numHeadersToSend step : ℕ) (reverse : Bool) : Hash × ℕ :=
  match blockId with
  | .hash blockHash =>
    if reverse then (if bc.isKnown blockHash true then blockHash else 0, numHeadersToSend)
    else bc.topByHash blockHash numHeadersToSend step
  | .number n =>
    if reverse then (if n < 2 ^ 32 then bc.numberHash n else 0, numHeadersToSend)
    else bc.topByNumber n numHeadersToSend step

/-- Walk back from a block by steps. -/
def walkBack (step : ℕ) : ℕ → Hash → List Hash
  | 0, _ => []
  | count + 1, blockHash =>
    if blockHash = 0 ∨ bc.isKnown blockHash true = false then []
    else blockHash :: walkBack step count (bc.nextHash blockHash step)

/-- The headers that are put into a packet of some size before it is full. -/
def fillPacket (headerData : Hash → Bytes) : ℕ → List Hash → List Hash
  | _, [] => []
  | size, hash :: rest =>
    if size < Config.maxPayload then
      hash :: fillPacket headerData (size + (headerData hash).length) rest
    else []

/-- The headers that are sent from a block on, up or down the chain. -/
def blockHeaders (headerData : Hash → Bytes) (blockId : BlockId) (maxHeaders skip : ℕ)
    (reverse : Bool) : HeadersPacket :=
  let step := (skip + 1) % 2 ^ 32
  let (blockHash, numHeadersToSend) := bc.startBlock blockId maxHeaders step reverse
  let hashes := bc.walkBack step numHeadersToSend blockHash
  { headers := fillPacket headerData 0 (if reverse then hashes else hashes.reverse)
    itemCount := hashes.length }

/-- The answer to a peer's request, if there is one. -/
def getBlockHeaders (headerData : Hash → Bytes) (blockId : BlockId) (maxHeaders skip : ℕ)
    (reverse : Bool) : Option HeadersPacket :=
  if skip > 2 ^ 32 - 2 then none
  else some (bc.blockHeaders headerData blockId (min maxHeaders Config.maxHeadersToSend) skip
    reverse)

/-- The headers that a request asks for: from a number up or down the chain, by steps. -/
def requested (n count skip : ℕ) (reverse : Bool) : List Hash :=
  if reverse then
    (List.range (min count (n / (skip + 1) + 1))).map fun i => bc.canonical (n - i * (skip + 1))
  else
    (List.range (min count ((bc.lastBlockNumber - n) / (skip + 1) + 1))).map fun i =>
      bc.canonical (n + i * (skip + 1))

/-- A request for which the top block is right: any but one upwards from a hash that leaves out
headers and does not reach the head. -/
def Aligned (blockId : BlockId) (n count skip : ℕ) (reverse : Bool) : Prop :=
  match blockId with
  | .hash _ => reverse = true ∨ skip = 0 ∨ bc.lastBlockNumber < n + (skip + 1) * count - 1
  | .number _ => True

/-- All headers but the last leave room in a packet. -/
def Fit (headerData : Hash → Bytes) (headers : List Hash) : Prop :=
  headers = [] ∨ (headers.dropLast.map fun hash => (headerData hash).length).sum < Config.maxPayload

end Requests

variable {bc bc' : BlockChain}

/-- What a chain answers about its canonical blocks. -/
structure Served (bc : BlockChain) : Prop where
  bounded : bc.lastBlockNumber < 2 ^ 32
  genesis : bc.canonical 0 = bc.genesisHash
  isKnown : ∀ m ≤ bc.lastBlockNumber, bc.isKnown (bc.canonical m) true = true
  nonzero : ∀ m ≤ bc.lastBlockNumber, bc.canonical m ≠ 0
  number : ∀ m ≤ bc.lastBlockNumber, (bc.details (bc.canonical m)).number = m
  parent : ∀ m < bc.lastBlockNumber, bc.parent (bc.canonical (m + 1)) = bc.canonical m
  first : bc.parent (bc.canonical 0) = 0
  null : bc.details 0 = .null
  numberHash : ∀ m ≤ bc.lastBlockNumber, bc.numberHash m = bc.canonical m

namespace Served

theorem traverseParents_null (served : bc.Served) {limitBlock : ℕ} (low : limitBlock < 2 ^ 32)
    (step : ℕ) : bc.traverseParents limitBlock step 0 = (0, 0) := by
  induction step with
  | zero => rfl
  | succ step ih =>
    have above : ¬ (bc.details 0).number < limitBlock := by
      rw [served.null]
      show ¬ 2 ^ 32 - 1 < limitBlock
      omega
    have parent : bc.parent 0 = 0 := by
      rw [BlockChain.parent, served.null]
      rfl
    rw [traverseParents, if_neg above, parent, ih]

variable {m step n : ℕ}

section

variable (served : bc.Served)

include served

/-- Parents of canonical blocks are canonical, until the limit is passed or the chain ends. -/
theorem traverseParents_canonical (limitBlock step : ℕ) (inside : m ≤ bc.lastBlockNumber) :
    ∃ hash left, bc.traverseParents limitBlock step (bc.canonical m) = (hash, left) ∧
      (left = 0 ∧ (if step ≤ m then hash = bc.canonical (m - step) else hash = 0) ∨
        0 < left ∧ left ≤ step ∧ step - left ≤ m ∧ hash = bc.canonical (m - (step - left))) := by
  -- The induction is on the steps, each of which goes one block down.
  induction step generalizing m with
  | zero => exact ⟨bc.canonical m, 0, rfl, .inl ⟨rfl, by simp⟩⟩
  | succ step ih =>
    rw [traverseParents, served.number m inside]
    by_cases stops : m < limitBlock
    · rw [if_pos stops]
      exact ⟨bc.canonical m, step + 1, rfl, .inr ⟨Nat.succ_pos _, Nat.le_refl _, by omega, by simp⟩⟩
    · rw [if_neg stops]
      cases m with
      | zero =>
        rw [served.first, served.traverseParents_null (by omega)]
        exact ⟨0, 0, rfl, .inl ⟨rfl, by simp⟩⟩
      | succ m =>
        rw [served.parent m (by omega)]
        obtain ⟨hash, left, walked, ends⟩ := ih (m := m) (by omega)
        refine ⟨hash, left, walked, ?_⟩
        obtain ⟨none, there⟩ | ⟨some_, few, far, there⟩ := ends
        · left
          refine ⟨none, ?_⟩
          rw [Nat.succ_sub_succ]
          by_cases reach : step ≤ m
          · rw [if_pos reach] at there
            rw [if_pos (by omega), there]
          · rw [if_neg reach] at there
            rw [if_neg (by omega), there]
        · right
          refine ⟨some_, by omega, by omega, ?_⟩
          rw [there]
          congr 1
          omega

theorem nextHash_canonical (inside : m ≤ bc.lastBlockNumber) (step : ℕ) :
    bc.nextHash (bc.canonical m) step = if step ≤ m then bc.canonical (m - step) else 0 := by
  unfold nextHash
  obtain ⟨hash, left, walked, ends⟩ := served.traverseParents_canonical
    (if bc.lastBlockNumber > Config.blockNumberUsageLimit then
      bc.lastBlockNumber - Config.blockNumberUsageLimit else 0) step inside
  simp only [walked]
  obtain ⟨rfl, there⟩ | ⟨more, few, far, rfl⟩ := ends
  · rw [if_pos rfl]
    by_cases reach : step ≤ m
    · rw [if_pos reach] at there ⊢
      exact there
    · rw [if_neg reach] at there ⊢
      exact there
  · have height := served.number (m - (step - left)) (by omega)
    rw [if_neg (by omega), BlockChain.number, height]
    by_cases reach : step ≤ m
    · rw [if_pos (by omega), if_pos reach, served.numberHash _ (by omega)]
      congr 1
      omega
    · rw [if_neg (by omega), if_neg reach]

theorem walkBack_canonical (positive : 0 < step) (count : ℕ) (inside : m ≤ bc.lastBlockNumber) :
    bc.walkBack step count (bc.canonical m) =
      (List.range (min count (m / step + 1))).map fun i => bc.canonical (m - i * step) := by
  induction count generalizing m with
  | zero => simp [walkBack]
  | succ count ih =>
    have shown : ¬ (bc.canonical m = 0 ∨ bc.isKnown (bc.canonical m) true = false) := by
      rw [served.isKnown m inside]
      rintro (null | unknown)
      · exact served.nonzero m inside null
      · cases unknown
    rw [walkBack, if_neg shown, served.nextHash_canonical inside, Nat.add_min_add_right,
      List.range_succ_eq_map, List.map_cons, Nat.zero_mul, Nat.sub_zero, List.map_map]
    congr 1
    by_cases reach : step ≤ m
    · rw [if_pos reach, ih (by omega)]
      have less : (m - step) / step + 1 = m / step := (Nat.div_eq_sub_div positive reach).symm
      rw [less]
      apply List.map_congr_left
      intro i _
      simp only [Function.comp_apply, Nat.succ_mul]
      congr 1
      omega
    · rw [if_neg reach, Nat.div_eq_of_lt (by omega), Nat.min_zero]
      cases count with
      | zero => rfl
      | succ count => simp [walkBack]

theorem reverse_walkBack (positive : 0 < step) {k : ℕ}
    (inside : n + step * k ≤ bc.lastBlockNumber) :
    (bc.walkBack step (k + 1) (bc.canonical (n + step * k))).reverse =
      (List.range (k + 1)).map fun i => bc.canonical (n + i * step) := by
  have enough : k ≤ (n + step * k) / step := by
    rw [Nat.le_div_iff_mul_le positive, Nat.mul_comm]
    omega
  rw [served.walkBack_canonical positive (k + 1) inside, Nat.min_eq_left (by omega)]
  apply List.ext_getElem
  · simp
  · intro i low _
    simp only [List.length_reverse, List.length_map, List.length_range] at low
    have split : step * k = (k - i) * step + i * step := by
      rw [← Nat.add_mul, Nat.sub_add_cancel (by omega), Nat.mul_comm]
    simp only [List.getElem_reverse, List.getElem_map, List.getElem_range, List.length_map,
      List.length_range, Nat.add_sub_cancel]
    congr 1
    omega

theorem canonical_ne {m' : ℕ} (inside : m ≤ bc.lastBlockNumber)
    (inside' : m' ≤ bc.lastBlockNumber) (other : m ≠ m') : bc.canonical m ≠ bc.canonical m' := by
  intro same
  have height := served.number m inside
  rw [same, served.number m' inside'] at height
  exact other height.symm

end

theorem steps_up {last : ℕ} (positive : 0 < step) (inside : n ≤ last) :
    n + step * ((last - n) / step) ≤ last ∧ ∀ k, n + step * k ≤ last → k ≤ (last - n) / step := by
  have most := Nat.mul_div_le (last - n) step
  refine ⟨by omega, ?_⟩
  intro k low
  rw [Nat.le_div_iff_mul_le positive, Nat.mul_comm]
  omega

theorem topByNumber_eq (served : bc.Served) {count : ℕ} (positive : 0 < step)
    (inside : n ≤ bc.lastBlockNumber) (some_ : 1 ≤ count) :
    ∃ k, k + 1 = min count ((bc.lastBlockNumber - n) / step + 1) ∧
      n + step * k ≤ bc.lastBlockNumber ∧
      bc.topByNumber n count step = (bc.canonical (n + step * k), k + 1) := by
  obtain ⟨reach, most⟩ := steps_up positive inside
  unfold topByNumber
  dsimp only
  rw [if_neg (by omega)]
  by_cases beyond : n + step * (count - 1) > bc.lastBlockNumber
  · rw [if_pos beyond, Nat.add_sub_cancel, served.numberHash _ reach]
    refine ⟨(bc.lastBlockNumber - n) / step, ?_, reach, rfl⟩
    have fewer : (bc.lastBlockNumber - n) / step < count - 1 := by
      by_contra many
      have far := Nat.mul_le_mul_left step (Nat.le_of_not_lt many)
      omega
    omega
  · rw [if_neg beyond, served.numberHash _ (by omega)]
    have fits := most (count - 1) (by omega)
    exact ⟨count - 1, by omega, by omega, by rw [Nat.sub_add_cancel some_]⟩

/-- The top block of a request upwards from a hash, which is right where the request reaches the
head or leaves nothing out. -/
theorem topByHash_eq (served : bc.Served) {count : ℕ} (positive : 0 < step)
    (inside : n ≤ bc.lastBlockNumber) (some_ : 1 ≤ count) :
    (step = 1 ∨ bc.lastBlockNumber < n + step * count - 1) ∧
      (∃ k, k + 1 = min count ((bc.lastBlockNumber - n) / step + 1) ∧
        n + step * k ≤ bc.lastBlockNumber ∧
        bc.topByHash (bc.canonical n) count step = (bc.canonical (n + step * k), k + 1)) ∨
    ¬ (step = 1 ∨ bc.lastBlockNumber < n + step * count - 1) ∧
      bc.topByHash (bc.canonical n) count step = (bc.canonical (n + step * count - 1), count) := by
  obtain ⟨reach, most⟩ := steps_up positive inside
  have started : n ≠ 0 ∨ bc.canonical n = bc.genesisHash := by
    by_cases zero : n = 0
    · rw [zero]
      exact .inr served.genesis
    · exact .inl zero
  have height : bc.number (bc.canonical n) = n := served.number n inside
  unfold topByHash
  rw [served.isKnown n inside]
  dsimp only
  rw [height, if_neg (by simp), if_neg (by omega), if_pos started]
  have product : step * count = step * (count - 1) + step := by
    rw [← Nat.mul_succ, Nat.succ_eq_add_one, Nat.sub_add_cancel some_]
  by_cases beyond : n + step * count - 1 > bc.lastBlockNumber
  · left
    rw [if_pos beyond, Nat.add_sub_cancel, served.numberHash _ reach]
    refine ⟨.inr beyond, (bc.lastBlockNumber - n) / step, ?_, reach, rfl⟩
    have fewer : (bc.lastBlockNumber - n) / step < count := by
      rw [Nat.div_lt_iff_lt_mul positive, Nat.mul_comm]
      omega
    omega
  · rw [if_neg beyond, served.numberHash _ (by omega)]
    by_cases single : step = 1
    · left
      subst single
      have fits := most (count - 1) (by omega)
      refine ⟨.inl rfl, count - 1, by omega, by omega, ?_⟩
      rw [Nat.sub_add_cancel some_]
      congr 2
      omega
    · right
      exact ⟨by omega, rfl⟩

end Served

theorem fillPacket_eq_iff (headerData : Hash → Bytes) (size : ℕ) (headers : List Hash) :
    fillPacket headerData size headers = headers ↔
      headers = [] ∨
        size + (headers.dropLast.map fun hash => (headerData hash).length).sum <
          Config.maxPayload := by
  induction headers generalizing size with
  | nil => simp [fillPacket]
  | cons hash rest ih =>
    rw [fillPacket]
    by_cases room : size < Config.maxPayload
    · rw [if_pos room, List.cons_eq_cons, and_iff_right rfl, ih]
      cases rest with
      | nil => simp [room]
      | cons next rest =>
        simp only [List.dropLast_cons_cons, List.map_cons, List.sum_cons, reduceCtorEq, false_or]
        rw [Nat.add_assoc]
    · rw [if_neg room]
      simp only [reduceCtorEq, false_or, false_iff]
      omega

theorem head_fillPacket (headerData : Hash → Bytes) (hash : Hash) (rest : List Hash) :
    (fillPacket headerData 0 (hash :: rest)).head? = some hash := by
  rw [fillPacket, if_pos (by decide)]
  rfl

namespace Served

variable {n count skip : ℕ}

/-- A request upwards whose top block is right is answered with what it asks for, as far as it fits
into a packet. -/
theorem blockHeaders_up (served : bc.Served) (headerData : Hash → Bytes) {blockId : BlockId}
    {k : ℕ} (bounded : skip ≤ 2 ^ 32 - 2)
    (counted : k + 1 = min count ((bc.lastBlockNumber - n) / (skip + 1) + 1))
    (inside : n + (skip + 1) * k ≤ bc.lastBlockNumber)
    (top : bc.startBlock blockId count (skip + 1) false =
      (bc.canonical (n + (skip + 1) * k), k + 1)) :
    bc.blockHeaders headerData blockId count skip false =
      ⟨fillPacket headerData 0 (bc.requested n count skip false),
        (bc.requested n count skip false).length⟩ := by
  have step : (skip + 1) % 2 ^ 32 = skip + 1 := Nat.mod_eq_of_lt (by omega)
  have walked := served.reverse_walkBack (Nat.succ_pos skip) inside
  have wanted : bc.requested n count skip false =
      (bc.walkBack (skip + 1) (k + 1) (bc.canonical (n + (skip + 1) * k))).reverse := by
    rw [walked, requested, if_neg (by simp), ← counted]
  rw [wanted, List.length_reverse, blockHeaders]
  dsimp only
  rw [step, top]
  rfl

theorem blockHeaders_down (served : bc.Served) (headerData : Hash → Bytes) {blockId : BlockId}
    (bounded : skip ≤ 2 ^ 32 - 2) (inside : n ≤ bc.lastBlockNumber)
    (named : blockId = .hash (bc.canonical n) ∨ blockId = .number n) :
    bc.blockHeaders headerData blockId count skip true =
      ⟨fillPacket headerData 0 (bc.requested n count skip true),
        (bc.requested n count skip true).length⟩ := by
  have step : (skip + 1) % 2 ^ 32 = skip + 1 := Nat.mod_eq_of_lt (by omega)
  have limit := served.bounded
  have top : bc.startBlock blockId count (skip + 1) true = (bc.canonical n, count) := by
    obtain rfl | rfl := named
    · simp [startBlock, served.isKnown n inside]
    · simp only [startBlock, if_true]
      rw [if_pos (by omega), served.numberHash n inside]
  have walked := served.walkBack_canonical (Nat.succ_pos skip) count inside
  rw [blockHeaders]
  dsimp only
  rw [step, top]
  dsimp only
  rw [if_pos rfl, requested, if_pos rfl, walked]

/-- A request upwards from a hash that leaves out headers and does not reach the head is answered
with others than it asks for. -/
theorem blockHeaders_shifted (served : bc.Served) (headerData : Hash → Bytes)
    (bounded : skip ≤ 2 ^ 32 - 2) (some_ : 1 ≤ count) (gaps : skip ≠ 0)
    (inside : n + (skip + 1) * count - 1 ≤ bc.lastBlockNumber)
    (top : bc.topByHash (bc.canonical n) count (skip + 1) =
      (bc.canonical (n + (skip + 1) * count - 1), count)) :
    (bc.blockHeaders headerData (.hash (bc.canonical n)) count skip false).headers ≠
      bc.requested n count skip false := by
  have step : (skip + 1) % 2 ^ 32 = skip + 1 := Nat.mod_eq_of_lt (by omega)
  obtain ⟨k, rfl⟩ := Nat.exists_eq_add_of_le' some_
  have place : n + (skip + 1) * (k + 1) - 1 = n + skip + (skip + 1) * k := by
    rw [Nat.mul_succ]
    omega
  rw [place] at inside top
  have walked := served.reverse_walkBack (Nat.succ_pos skip) inside
  have sent : (bc.blockHeaders headerData (.hash (bc.canonical n)) (k + 1) skip false).headers =
      fillPacket headerData 0 ((List.range (k + 1)).map fun i =>
        bc.canonical (n + skip + i * (skip + 1))) := by
    rw [← walked, blockHeaders]
    simp only [step, startBlock, Bool.false_eq_true, if_false, top]
  have firstSent : (bc.blockHeaders headerData (.hash (bc.canonical n)) (k + 1) skip
      false).headers.head? = some (bc.canonical (n + skip)) := by
    rw [sent, List.range_succ_eq_map, List.map_cons, head_fillPacket]
    simp
  have firstWanted : (bc.requested n (k + 1) skip false).head? = some (bc.canonical n) := by
    rw [requested, if_neg (by simp), Nat.add_min_add_right, List.range_succ_eq_map]
    simp
  intro same
  rw [same, firstWanted] at firstSent
  have low : n + skip ≤ bc.lastBlockNumber := by
    have nonneg := Nat.zero_le ((skip + 1) * k)
    omega
  exact served.canonical_ne (by omega) low (by omega) (Option.some.inj firstSent)

end Served

theorem Grown.isKnown_of_known (grown : bc.Grown) {hash : Hash} (known : bc.Known hash) :
    bc.isKnown hash true = true := by
  obtain ⟨b, found⟩ := known
  have number : bc.number hash ≤ bc.lastBlockNumber := by
    rw [(grown.details_of found).1]
    exact grown.low hash b found
  have stored : bc.blocks.contains hash = true := by
    simp [← Std.ExtTreeMap.isSome_getElem?_eq_contains, found]
  have told : (bc.detailsTable.find hash).isSome = true := by
    obtain ⟨d, noted⟩ := grown.noted hash b found
    unfold Cached.find
    cases bc.detailsTable.cache[hash]? with
    | some e => rfl
    | none => simp [noted]
  simp [isKnown, stored, told, number]

theorem Grown.details_zero (grown : bc.Grown) : bc.details 0 = .null := by
  have unknown : ¬ bc.Known 0 := by
    rintro ⟨b, found⟩
    exact b.hashed (grown.named 0 b found)
  have told : ∀ d, ¬ bc.Tells 0 d := by
    rintro d ⟨b, found, -⟩
    exact unknown ⟨b, found⟩
  have none : bc.detailsTable.find 0 = none := by
    unfold Cached.find
    cases held : bc.detailsTable.cache[(0 : Hash)]? with
    | some d => exact absurd (grown.held 0 d held) (told d)
    | none =>
      cases stored : bc.detailsTable.store[(0 : Hash)]? with
      | some d => exact absurd (grown.stored 0 d stored) (told d)
      | none => rfl
  rw [details, none]
  rfl

theorem served_of_calls {genesis : Block} {initialProducers : List Address} {first : BlockChain}
    (started : start genesis initialProducers = some first) {cs : List Call}
    (ran : first.calls cs = some bc) : bc.Served := by
  have grown := (grown_start started).calls ran
  have indexed := (indexed_start started).calls (grown_start started) ran
  have known : ∀ m, bc.Known (bc.canonical m) := grown.rooted.known_ancestor grown.known_head
  have height : ∀ m ≤ bc.lastBlockNumber, bc.number (bc.canonical m) = m := by
    intro m inside
    apply grown.rooted.depth_ancestor grown.known_head
    rw [grown.number_head]
    exact inside
  have zero : bc.canonical 0 = bc.genesisHash := grown.rooted.ancestor_zero grown.known_head
  refine ⟨grown.bounded, zero, fun m _ => grown.isKnown_of_known (known m), ?_, height, ?_, ?_,
    grown.details_zero, fun m inside => indexed.numberHash_eq grown inside⟩
  · intro m _
    obtain ⟨b, found⟩ := known m
    rw [← grown.named _ b found]
    exact b.hashed
  · intro m inside
    -- One step up from the ancestor with the next number is the ancestor with this one.
    rw [canonical, canonical, Ancestry.ancestor, Ancestry.ancestor, grown.number_head,
      ← Function.iterate_succ_apply' bc.parent]
    congr 1
    omega
  · obtain ⟨same, kept⟩ := keeps_calls (grown_start started) ran
    obtain ⟨stored, null⟩ : first.blocks[first.genesisHash]? = some genesis ∧
        genesis.header.parentHash = 0 := by
      unfold start at started
      split at started
      · cases started
      · next guard =>
        obtain ⟨c, -, made⟩ := Option.bind_eq_some_iff.mp started
        cases made
        refine ⟨Std.ExtTreeMap.getElem?_insert_self, ?_⟩
        by_contra other
        exact guard (.inr other)
    rw [zero, same, (grown.details_of (kept _ _ stored)).2, null]

/-- On any reachable chain, a request for headers from a canonical block, named by its hash or its
number, is answered with exactly the headers that it asks for if its top block is right and the
headers fit into a packet. -/
theorem getBlockHeaders_exact_iff {genesis : Block} {initialProducers : List Address}
    {first : BlockChain} (started : start genesis initialProducers = some first) {cs : List Call}
    (ran : first.calls cs = some bc) {n count skip : ℕ} (inside : n ≤ bc.lastBlockNumber)
    (some_ : 1 ≤ count) (most : count ≤ 1024) (bounded : skip ≤ 2 ^ 32 - 2)
    (headerData : Hash → Bytes) (reverse : Bool) {blockId : BlockId}
    (named : blockId = .hash (bc.canonical n) ∨ blockId = .number n) :
    bc.getBlockHeaders headerData blockId count skip reverse =
        some ⟨bc.requested n count skip reverse, (bc.requested n count skip reverse).length⟩ ↔
      bc.Aligned blockId n count skip reverse ∧
        Fit headerData (bc.requested n count skip reverse) := by
  -- Only a hash read upwards over gaps can have a wrong top block.
  have served := served_of_calls started ran
  have asked : bc.getBlockHeaders headerData blockId count skip reverse =
      some (bc.blockHeaders headerData blockId count skip reverse) := by
    rw [getBlockHeaders, if_neg (by omega), Config.maxHeadersToSend, Nat.min_eq_left most]
  rw [asked, Option.some.injEq]
  have whole : ∀ headers : List Hash,
      (HeadersPacket.mk (fillPacket headerData 0 headers) headers.length =
        ⟨headers, headers.length⟩ ↔ Fit headerData headers) := by
    intro headers
    rw [HeadersPacket.mk.injEq, and_iff_left rfl, fillPacket_eq_iff, Nat.zero_add, Fit]
  cases reverse with
  | true =>
    have aligned : bc.Aligned blockId n count skip true := by
      obtain rfl | rfl := named
      · exact .inl rfl
      · trivial
    rw [served.blockHeaders_down headerData bounded inside named, whole, and_iff_right aligned]
  | false =>
    obtain rfl | rfl := named
    · obtain ⟨right, k, counted, low, top⟩ | ⟨wrong, top⟩ :=
        served.topByHash_eq (Nat.succ_pos skip) inside some_
      · have aligned : bc.Aligned (.hash (bc.canonical n)) n count skip false := by
          obtain single | beyond := right
          · exact .inr (.inl (Nat.succ.inj single))
          · exact .inr (.inr beyond)
        have start : bc.startBlock (.hash (bc.canonical n)) count (skip + 1) false = _ := top
        rw [served.blockHeaders_up headerData bounded counted low start, whole,
          and_iff_right aligned]
      · have gaps : skip ≠ 0 := fun zero => wrong (.inl (by rw [zero]))
        have low : n + (skip + 1) * count - 1 ≤ bc.lastBlockNumber := by
          by_contra beyond
          exact wrong (.inr (Nat.lt_of_not_le beyond))
        constructor
        · intro same
          exact absurd (congrArg HeadersPacket.headers same)
            (served.blockHeaders_shifted headerData bounded some_ gaps low top)
        · rintro ⟨up | zero | beyond, -⟩
          · cases up
          · exact absurd zero gaps
          · omega
    · obtain ⟨k, counted, low, top⟩ := served.topByNumber_eq (Nat.succ_pos skip) inside some_
      have start : bc.startBlock (.number n) count (skip + 1) false = _ := top
      rw [served.blockHeaders_up headerData bounded counted low start, whole]
      exact (and_iff_right trivial).symm

/-- A chain of three blocks on the first one. -/
def threeBlocks : List Call :=
  [.importBlock (.signed 100 1 1513580387 31 7 [] 16 (by decide) (by decide +kernel)) [],
    .importBlock (.signed 100 2 1513580447 32 31 [] 32 (by decide) (by decide +kernel)) [],
    .importBlock (.signed 200 3 1513580450 33 32 [] 64 (by decide) (by decide +kernel)) []]

/-- Every second header from the first block on, asked for by its number. -/
theorem getBlockHeaders_exact_iff_number :
    ∃ bc, (start sampleGenesis [100, 200]).bind (·.calls threeBlocks) = some bc ∧
      bc.getBlockHeaders (fun _ => [0]) (.number 0) 2 1 false =
        some ⟨bc.requested 0 2 1 false, 2⟩ := by
  have ran : ((start sampleGenesis [100, 200]).bind (·.calls threeBlocks)).map
      (·.lastBlockNumber) = some 3 := by decide +kernel
  obtain ⟨bc, reached, last⟩ := Option.map_eq_some_iff.mp ran
  obtain ⟨first, started, run⟩ := Option.bind_eq_some_iff.mp reached
  have count : (bc.requested 0 2 1 false).length = 2 := by
    rw [requested, if_neg (by decide), last, List.length_map, List.length_range]
    rfl
  have small : Fit (fun _ => [0]) (bc.requested 0 2 1 false) := by
    right
    rw [List.map_const', List.sum_replicate, List.length_dropLast, count]
    decide
  have exact := (getBlockHeaders_exact_iff started run (n := 0) (Nat.zero_le _) (by decide)
    (by decide) (by decide) (fun _ => [0]) false (.inr rfl)).mpr ⟨trivial, small⟩
  rw [count] at exact
  exact ⟨bc, reached, exact⟩

/-- The same headers asked for by the hash of the first block: other ones are sent. -/
theorem getBlockHeaders_by_hash_shifted :
    ((start sampleGenesis [100, 200]).bind (·.calls threeBlocks)).map (fun bc =>
      (bc.canonical 0, bc.getBlockHeaders (fun _ => [0]) (.hash 7) 2 1 false,
        bc.getBlockHeaders (fun _ => [0]) (.number 0) 2 1 false)) =
      some (7, some ⟨[31, 33], 2⟩, some ⟨[7, 32], 2⟩) := by
  decide +kernel

end BlockChain

end Etiam
