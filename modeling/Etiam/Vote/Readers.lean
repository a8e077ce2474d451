import Etiam.Vote.Manager

/-! What the readers of the vote storage make of saved records, and the texts of a candidate. -/

namespace Etiam

namespace VoteInfo

/-- The part of a storage key that numbers the page. -/
def mask : U256 := 0xffffffffffffffffffffffff

/-- Collect the votes of the candidate whose record one stored word opens. -/
def collectProducer (producers : Std.ExtTreeMap Address U64) (key page : U256) :
    Std.ExtTreeMap Address U64 :=
  if mask &&& key = 0 then
    if (pageBytes page).getD 1 0 ≠ 0 then
      producers.insert ((key >>> 96).setWidth 160)
        (bytesWord 64 (((pageBytes page).drop 10).take 8))
    else producers
  else producers

/-- Read the votes of all candidates off the first pages of their records. -/
def getProducerMap (s : State) : Std.ExtTreeMap Address U64 :=
  (s.storageMap voteInfoAddress).words.foldl collectProducer ∅

/-- The votes that a first page shows, if it is the page of a candidate. -/
def shownVotes (page : U256) : Option U64 :=
  if (pageBytes page).getD 1 0 ≠ 0 then some (bytesWord 64 (((pageBytes page).drop 10).take 8))
  else none

theorem mask_and_eq_zero (key : U256) : mask &&& key = 0 ↔ key.setWidth 96 = 0 := by
  have value : mask.toNat = 2 ^ 96 - 1 := by decide
  rw [← BitVec.toNat_inj, ← BitVec.toNat_inj, BitVec.toNat_and, BitVec.toNat_setWidth, value,
    Nat.and_comm, Nat.and_two_pow_sub_one_eq_mod]
  rfl

theorem collectProducer_eq : collectProducer = collect fun _ => shownVotes := by
  funext producers key page
  unfold collectProducer collect shownVotes
  by_cases low : key.setWidth 96 = 0
  · rw [if_pos ((mask_and_eq_zero key).mpr low), if_pos low]
    by_cases shown : (pageBytes page).getD 1 0 ≠ 0
    · simp only [if_pos shown, Option.elim_some]
    · simp only [if_neg shown, Option.elim_none]
  · rw [if_neg fun masked => low ((mask_and_eq_zero key).mp masked), if_neg low]

theorem exists_load_eq (s : State) (a : Address) : ∃ rest, load s a = initFromBytes a
    (pageBytes (s.storage voteInfoAddress (UserStorage.addressToU256 a 0)) ++ rest) := by
  refine ⟨_, congrArg (initFromBytes a) (if_pos ?_)⟩
  rw [basicSize]
  omega

/-- The votes that a first page shows are those of the record that it opens. -/
theorem shownVotes_eq (s : State) (a : Address) :
    shownVotes (s.storage voteInfoAddress (UserStorage.addressToU256 a 0)) =
      if (load s a).isCandidate then some (load s a).receivedVote else none := by
  -- Both lie on the first page, whatever follows it.
  have width := pageBytes_length (s.storage voteInfoAddress (UserStorage.addressToU256 a 0))
  obtain ⟨rest, loaded⟩ := exists_load_eq s a
  rw [loaded, shownVotes]
  generalize pageBytes (s.storage voteInfoAddress (UserStorage.addressToU256 a 0)) = value at width
  have flag : ((value ++ rest).drop 1).headD 0 = value.getD 1 0 := by
    rw [List.drop_append_of_le_length (by omega), List.getD_eq_getElem?_getD,
      List.headD_eq_head?_getD,
      List.head?_append_of_ne_nil _ (by
        intro none_left
        have short := congrArg List.length none_left
        rw [List.length_drop, width] at short
        cases short), List.head?_drop]
  have votes : ((value ++ rest).drop 10).take 8 = (value.drop 10).take 8 := by
    rw [List.drop_append_of_le_length (by omega), List.take_append_of_le_length (by
      rw [List.length_drop]
      omega)]
  simp only [initFromBytes, flag, votes, decide_eq_true_eq]

theorem getElem?_getProducerMap (s : State) (a : Address) :
    (getProducerMap s)[a]? =
      if (load s a).isCandidate then some (load s a).receivedVote else none := by
  have collected := getElem?_foldl_words (fun _ => shownVotes) a s
  rw [← collectProducer_eq] at collected
  rw [getProducerMap, collected]
  split
  · next page => rw [(load_of_page_zero s a page).1, if_neg (by simp)]
  · exact shownVotes_eq s a

/-- Save records one after another. -/
def saves (s : State) (infos : List VoteInfo) : State := infos.foldl save s

/-- The record that was saved last for an account. -/
def lastSaved (infos : List VoteInfo) (a : Address) : Option VoteInfo :=
  infos.reverse.find? (·.address = a)

/-- A record whose first page is all zeros. -/
structure EmptyPage (info : VoteInfo) : Prop where
  entries : info.voteRecord = ∅
  candidate : info.isCandidate = false
  hold : info.holdVotes = 0
  received : info.receivedVote = 0
  name : info.name.buffer.take 14 = List.replicate 14 0

/-- Two records agree in all but the texts. -/
structure SameVotes (first second : VoteInfo) : Prop where
  isCandidate : first.isCandidate = second.isCandidate
  holdVotes : first.holdVotes = second.holdVotes
  receivedVote : first.receivedVote = second.receivedVote
  voteRecord : first.voteRecord = second.voteRecord

section Saves

variable {s : State} {infos : List VoteInfo} {info : VoteInfo} {a : Address}

theorem sameVotes_stored (info : VoteInfo) : SameVotes info.stored info.removeZeroVote :=
  ⟨rfl, rfl, rfl, rfl⟩

theorem lastSaved_concat (infos : List VoteInfo) (info : VoteInfo) (a : Address) :
    lastSaved (infos ++ [info]) a = if info.address = a then some info else lastSaved infos a := by
  rw [lastSaved, List.reverse_append, List.reverse_singleton, List.singleton_append,
    List.find?_cons]
  by_cases own : info.address = a
  · simp [own]
  · simp [own, lastSaved]

theorem saves_concat (s : State) (infos : List VoteInfo) (info : VoteInfo) :
    saves s (infos ++ [info]) = save (saves s infos) info := by
  rw [saves, List.foldl_append]
  rfl

theorem load_saves (few : ∀ i ∈ infos, i.removeZeroVote.voteRecord.size ≤ 15)
    (last : lastSaved infos a = some info) : load (saves s infos) a = info.stored := by
  induction infos using List.reverseRecOn with
  | nil => cases last
  | append_singleton earlier new ih =>
    have small : new.removeZeroVote.voteRecord.size < 256 := by
      have bound := few new (by simp)
      omega
    rw [lastSaved_concat] at last
    rw [saves_concat]
    split at last
    · next own =>
      cases last
      rw [← own, load_save _ _ small]
    · next other =>
      rw [load_save_other _ _ small (Ne.symm other),
        ih (fun i member => few i (List.mem_append_left _ member)) last]

theorem storage_save (few : info.removeZeroVote.voteRecord.size ≤ 15) (a : Address) :
    (save s info).storage voteInfoAddress (UserStorage.addressToU256 a 0) =
      if a = info.address then pageWord (pageWindow 32 info.removeZeroVote.toBytes 0)
      else s.storage voteInfoAddress (UserStorage.addressToU256 a 0) := by
  have written := UserStorage.storage_saveBytes s voteInfoAddress info.address
    info.removeZeroVote.toBytes (pageNum_toBytes _ (by omega)) a (show 0 < 2 ^ 96 by norm_num)
  have present : 0 < UserStorage.pageNum info.removeZeroVote.toBytes.length := by
    rw [toBytes_length, UserStorage.pageNum, basicSize]
    omega
  simpa [save, present] using written

/-- The first page of an account after saves is that of the record that was saved last. -/
theorem storage_saves (few : ∀ i ∈ infos, i.removeZeroVote.voteRecord.size ≤ 15)
    (last : lastSaved infos a = some info) :
    (saves s infos).storage voteInfoAddress (UserStorage.addressToU256 a 0) =
      pageWord (pageWindow 32 info.removeZeroVote.toBytes 0) := by
  induction infos using List.reverseRecOn with
  | nil => cases last
  | append_singleton earlier new ih =>
    rw [lastSaved_concat] at last
    rw [saves_concat, storage_save (few new (by simp))]
    split at last
    · next own =>
      cases last
      rw [if_pos own.symm]
    · next other =>
      rw [if_neg (Ne.symm other), ih (fun i member => few i (List.mem_append_left _ member)) last]

theorem pageWord_eq_zero {bytes : Bytes} (full : bytes.length = 32) :
    pageWord bytes = 0 ↔ bytes = List.replicate 32 0 := by
  constructor
  · intro zero
    have shown := pageBytes_pageWord (Nat.le_of_eq full)
    rw [zero, pageBytes_zero, full, Nat.sub_self, List.replicate_zero, List.append_nil] at shown
    exact shown.symm
  · rintro rfl
    decide

theorem wordBytes_eq_zero (value : U64) :
    wordBytes 8 value = List.replicate 8 0 ↔ value = 0 := by
  constructor
  · intro zeros
    have back := bytesWord_wordBytes (show 2 ^ 64 = 256 ^ 8 by norm_num) value
    rw [zeros] at back
    rw [← back]
    decide
  · rintro rfl
    decide

theorem firstPage_eq_zero (few : info.voteRecord.size ≤ 15) :
    pageWord (pageWindow 32 info.toBytes 0) = 0 ↔ info.EmptyPage := by
  have shown : pageWindow 32 info.toBytes 0 =
      [UInt8.ofNat info.voteRecord.size, if info.isCandidate then 1 else 0] ++
        (wordBytes 8 info.holdVotes ++
          (wordBytes 8 info.receivedVote ++ info.name.buffer.take 14)) := by
    rw [pageWindow, Nat.mul_zero, List.drop_zero, toBytes,
      show 32 = [UInt8.ofNat info.voteRecord.size,
        if info.isCandidate then (1 : UInt8) else 0].length +
        ((wordBytes 8 info.holdVotes).length +
          ((wordBytes 8 info.receivedVote).length + 14)) by simp,
      List.take_length_add_append, List.take_length_add_append, List.take_length_add_append,
      List.take_append_of_le_length (by simp)]
  have text : (info.name.buffer.take 14).length = 14 := by simp
  rw [pageWord_eq_zero (by rw [shown]; simp), shown]
  simp only [List.append_eq_replicate_iff, wordBytes_length, text, wordBytes_eq_zero]
  constructor
  · rintro ⟨-, flags, -, hold, -, received, name⟩
    obtain ⟨count, candidate⟩ : UInt8.ofNat info.voteRecord.size = 0 ∧
        (if info.isCandidate then (1 : UInt8) else 0) = 0 := by simpa [List.replicate] using flags
    refine ⟨?_, ?_, hold, received, name⟩
    · have none_left : info.voteRecord.size = 0 := by
        have value := congrArg UInt8.toNat count
        rw [UInt8.toNat_ofNat', Nat.mod_eq_of_lt (by omega)] at value
        exact value
      exact Std.ExtTreeMap.eq_empty_iff_size_eq_zero.mpr none_left
    · by_contra flag
      rw [Bool.not_eq_false] at flag
      rw [flag] at candidate
      cases candidate
  · rintro ⟨entries, candidate, hold, received, name⟩
    refine ⟨by simp, ?_, by simp, hold, by simp, received, name⟩
    simp [entries, candidate, List.replicate]

end Saves

theorem size_emplaceAll_le (entries : List (Address × U64)) :
    (emplaceAll ∅ entries).size ≤ entries.length := by
  have grows : ∀ (entries : List (Address × U64)) (table : Std.ExtTreeMap Address U64),
      (emplaceAll table entries).size ≤ table.size + entries.length := by
    intro entries
    induction entries with
    | nil => exact fun table => Nat.le_refl _
    | cons entry rest ih =>
      intro table
      have later := ih (table.insertIfNew entry.1 entry.2)
      have one := Std.ExtTreeMap.size_insertIfNew_le (t := table) (k := entry.1) (v := entry.2)
      rw [List.length_cons]
      change (emplaceAll (table.insertIfNew entry.1 entry.2) rest).size ≤ _
      omega
  have bound := grows entries ∅
  rwa [Std.ExtTreeMap.size_empty, Nat.zero_add] at bound

theorem length_readEntries (count : ℕ) (bytes : Bytes) :
    (readEntries count bytes).length = count := by
  induction count generalizing bytes with
  | zero => rfl
  | succ count ih => rw [readEntries, List.length_cons, ih]

theorem size_load_lt (s : State) (a : Address) : (load s a).voteRecord.size < 256 := by
  obtain ⟨rest, loaded⟩ := exists_load_eq s a
  rw [loaded, initFromBytes]
  refine Nat.lt_of_le_of_lt (size_emplaceAll_le _) ?_
  rw [length_readEntries]
  exact UInt8.toNat_lt _

end VoteInfo

namespace Text

variable {limit : ℕ}

theorem ofBuffer_buffer_eq_iff (text : Text limit) :
    ofBuffer limit text.buffer = text ↔ (0 : UInt8) ∉ text.bytes := by
  have same : ofBuffer limit text.buffer = text ↔
      (text.bytes ++ List.replicate (limit - text.bytes.length) 0).takeWhile (· ≠ 0) =
        text.bytes := by
    obtain ⟨bytes, bounded⟩ := text
    rw [ofBuffer, Text.mk.injEq, List.take_of_length_le (by simp), buffer]
  rw [same]
  constructor
  · intro back zero
    rw [← back] at zero
    have differs := List.mem_takeWhile_imp zero
    simp at differs
  · intro absent
    have inside : ∀ b ∈ text.bytes, (b ≠ 0 : Bool) = true := by
      intro b member
      simpa using fun zero : b = 0 => absent (zero ▸ member)
    rw [List.takeWhile_append_of_pos inside]
    cases limit - text.bytes.length <;> simp [List.replicate]

end Text

namespace VoteManager

/-- The name and the url in the input of a registration, if it is taken: a name, a zero and a url.
-/
def candidateTexts (input : Bytes) : Option (Text 40 × Text 120) :=
  if input.length < 1 + 5 + 1 ∨ 40 + 120 + 1 < input.length then none
  else if (0 : UInt8) ∉ input then none
  else
    let name := input.takeWhile (· ≠ 0)
    let url := (input.dropWhile (· ≠ 0)).drop 1
    if sizes : name.length ≤ 40 ∧ url.length ≤ 120 then
      if name.length < 1 ∨ url.length < 5 then none
      else some (⟨name, sizes.1⟩, ⟨url, sizes.2⟩)
    else none

/-- Register a candidate with the texts in an input, if it is taken. -/
def registerInput (input : Bytes) (a : Address) (s : State) : State :=
  match candidateTexts input with
  | none => s
  | some (name, url) => (candidateRegister name url a s).1

theorem zero_not_mem_name {input : Bytes} {name : Text 40} {url : Text 120}
    (taken : candidateTexts input = some (name, url)) : (0 : UInt8) ∉ name.bytes := by
  unfold candidateTexts at taken
  split at taken
  · cases taken
  · split at taken
    · cases taken
    · dsimp only at taken
      split at taken
      · split at taken
        · cases taken
        · cases taken
          intro zero
          have differs := List.mem_takeWhile_imp zero
          simp at differs
      · cases taken

theorem load_registerInput {s : State} {a : Address} {input : Bytes} {name : Text 40}
    {url : Text 120} (taken : candidateTexts input = some (name, url))
    (fresh : (VoteInfo.load s a).isCandidate = false) :
    (VoteInfo.load (registerInput input a s) a).name = Text.ofBuffer 40 name.buffer ∧
      (VoteInfo.load (registerInput input a s) a).url = Text.ofBuffer 120 url.buffer := by
  have registered : registerInput input a s =
      VoteInfo.save s { VoteInfo.load s a with name, url, isCandidate := true } := by
    rw [registerInput, taken]
    dsimp only
    rw [candidateRegister, fresh]
    rfl
  have owner : (VoteInfo.load s a).address = a := rfl
  have small : ({ VoteInfo.load s a with name, url, isCandidate := true } :
      VoteInfo).removeZeroVote.voteRecord.size < 256 :=
    Nat.lt_of_le_of_lt Std.ExtTreeMap.size_filter_le_size (VoteInfo.size_load_lt s a)
  have loaded :=
    VoteInfo.load_save s { VoteInfo.load s a with name, url, isCandidate := true } small
  rw [registered]
  rw [owner] at loaded
  rw [loaded]
  exact ⟨rfl, rfl⟩

end VoteManager

open VoteInfo VoteManager

/-- Whatever was saved last for an account is loaded, and its votes are listed if it is a candidate;
it is among the collected records unless its first page is empty. A save leaves the readings of
other accounts alone. The texts of a registration are read back exactly if the url has no zero. -/
theorem saved_votes_read_back (s : State) :
    (∀ infos a info, (∀ i ∈ infos, i.removeZeroVote.voteRecord.size ≤ 15) →
      lastSaved infos a = some info →
      SameVotes (load (saves s infos) a) info.removeZeroVote ∧
      (getProducerMap (saves s infos))[a]? =
        (if info.isCandidate then some info.receivedVote else none) ∧
      ((∃ found, (getVoteInfoMap (saves s infos))[a]? = some found ∧
        SameVotes found info.removeZeroVote) ↔ ¬ info.removeZeroVote.EmptyPage)) ∧
    (∀ info a, info.removeZeroVote.voteRecord.size ≤ 15 → a ≠ info.address →
      load (save s info) a = load s a ∧
      (getVoteInfoMap (save s info))[a]? = (getVoteInfoMap s)[a]? ∧
      (getProducerMap (save s info))[a]? = (getProducerMap s)[a]?) ∧
    ∀ input a name url, candidateTexts input = some (name, url) →
      (load s a).isCandidate = false →
      ((load (registerInput input a s) a).name = name ∧
        (load (registerInput input a s) a).url = url ↔ (0 : UInt8) ∉ url.bytes) := by
  refine ⟨fun infos a info few last => ?_, fun info a few other => ?_,
    fun input a name url taken fresh => ?_⟩
  · have loaded := @load_saves s infos info a few last
    have page := @storage_saves s infos info a few last
    have member : info ∈ infos := List.mem_reverse.mp (List.mem_of_find?_eq_some last)
    refine ⟨loaded ▸ sameVotes_stored info, ?_, ?_⟩
    · rw [getElem?_getProducerMap, loaded]
      rfl
    · rw [getElem?_getVoteInfoMap, page, ← firstPage_eq_zero (few info member), loaded]
      split
      · next empty => simp [empty]
      · next shown => exact ⟨fun _ => shown, fun _ => ⟨_, rfl, sameVotes_stored info⟩⟩
  · have same := load_save_other s info (by omega) other
    have page := @storage_save s info few a
    rw [if_neg other] at page
    rw [getElem?_getVoteInfoMap, getElem?_getVoteInfoMap, getElem?_getProducerMap,
      getElem?_getProducerMap, page, same]
    exact ⟨rfl, rfl, rfl⟩
  · obtain ⟨readName, readUrl⟩ := load_registerInput taken fresh
    rw [readName, readUrl, Text.ofBuffer_buffer_eq_iff, Text.ofBuffer_buffer_eq_iff]
    exact and_iff_right (zero_not_mem_name taken)

/-- A state that has the account of the votes, with nothing in its storage. -/
def unvotedState : State where
  accounts := (∅ : Std.ExtTreeMap Address Account).insert voteInfoAddress (.fresh 0 1)
  accountStartNonce := 0

theorem load_unvotedState (a : Address) : (load unvotedState a).isCandidate = false := by
  refine (load_of_page_zero unvotedState a ?_).1
  rfl

/-- A candidate with some votes. -/
def sampleCandidate : VoteInfo := { blank 5 with isCandidate := true, receivedVote := 7 }

/-- A candidate that was saved is read back, and so are a name and a url without a zero. -/
theorem saved_votes_read_back_candidate :
    SameVotes (load (saves unvotedState [sampleCandidate]) 5) sampleCandidate ∧
    (load (registerInput [110, 0, 104, 116, 116, 112, 58] 5 unvotedState) 5).url.bytes =
      [104, 116, 116, 112, 58] := by
  have whole := saved_votes_read_back unvotedState
  refine ⟨?_, ?_⟩
  · have few : ∀ i ∈ [sampleCandidate], i.removeZeroVote.voteRecord.size ≤ 15 := by
      intro i member
      rw [List.mem_singleton.mp member]
      decide
    exact (whole.1 [sampleCandidate] 5 sampleCandidate few rfl).1
  · have taken : candidateTexts [110, 0, 104, 116, 116, 112, 58] =
        some (⟨[110], by decide⟩, ⟨[104, 116, 116, 112, 58], by decide⟩) := rfl
    have read := (whole.2.2 _ 5 _ _ taken (load_unvotedState 5)).mpr (by decide)
    rw [read.2]

/-- A url that ends with a zero is read back without it, and a blank record is not collected. -/
theorem url_cut_at_zero :
    (∃ name url, candidateTexts [110, 0, 104, 116, 116, 112, 0] = some (name, url) ∧
      (load (registerInput [110, 0, 104, 116, 116, 112, 0] 5 unvotedState) 5).url ≠ url) ∧
    (getVoteInfoMap (saves unvotedState [blank 5]))[(5 : Address)]? = none := by
  constructor
  · have taken : candidateTexts [110, 0, 104, 116, 116, 112, 0] =
        some (⟨[110], by decide⟩, ⟨[104, 116, 116, 112, 0], by decide⟩) := rfl
    refine ⟨_, _, taken, fun same => ?_⟩
    rw [(load_registerInput taken (load_unvotedState 5)).2, Text.ofBuffer_buffer_eq_iff] at same
    exact same (by decide)
  · have few : ∀ i ∈ [blank 5], i.removeZeroVote.voteRecord.size ≤ 15 := by
      intro i member
      rw [List.mem_singleton.mp member]
      decide
    have empty : (blank 5).removeZeroVote.EmptyPage := ⟨rfl, rfl, rfl, rfl, by decide⟩
    rw [getElem?_getVoteInfoMap, storage_saves few rfl,
      if_pos ((firstPage_eq_zero (by decide)).mpr empty)]

end Etiam
