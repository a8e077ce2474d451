import Etiam.Library.Bytes

/-! The world state that transactions read and write: balances, nonces, code and storage. -/

namespace Etiam

/-- A 160-bit account address. -/
abbrev Address := BitVec 160

/-- A 256-bit hash. -/
abbrev Hash := BitVec 256

/-- The 256-bit machine integer of balances, nonces and storage words. -/
abbrev U256 := BitVec 256

/-- The host's unsigned 64-bit integer. -/
abbrev U64 := BitVec 64

/-- A bloom of logs. -/
abbrev LogBloom := BitVec 2048

instance : Std.TransOrd Address := inferInstanceAs (Std.TransOrd (BitVec 160))

instance : Std.TransOrd Hash := inferInstanceAs (Std.TransOrd (BitVec 256))

instance : LawfulBEq Address := inferInstanceAs (LawfulBEq (BitVec 160))

/-- The account whose storage holds the vote records. -/
def voteInfoAddress : Address := 0x21

/-- The sender that stands for a transaction without signature. -/
def maxAddress : Address := 0xffffffffffffffffffffffffffffffffffffffff

/-- The words of one account's storage, where a word that is zero is not kept. -/
structure Storage where
  words : Std.ExtTreeMap U256 U256
  nonzero : ∀ key value : U256, words[key]? = some value → value ≠ 0

namespace Storage

/-- The storage of an account that never wrote a word. -/
def empty : Storage := ⟨∅, by simp⟩

theorem nonzero_insert (st : Storage) {key value : U256} (used : value ≠ 0) :
    ∀ other found : U256, (st.words.insert key value)[other]? = some found → found ≠ 0 := by
  intro other found present
  rw [Std.ExtTreeMap.getElem?_insert] at present
  split at present
  · cases present; exact used
  · exact st.nonzero other found present

theorem nonzero_erase (st : Storage) (key : U256) :
    ∀ other found : U256, (st.words.erase key)[other]? = some found → found ≠ 0 := by
  intro other found present
  rw [Std.ExtTreeMap.getElem?_erase] at present
  split at present
  · cases present
  · exact st.nonzero other found present

/-- Write one word, where writing zero drops the word. -/
def write (st : Storage) (key value : U256) : Storage :=
  if used : value = 0 then ⟨st.words.erase key, st.nonzero_erase key⟩
  else ⟨st.words.insert key value, st.nonzero_insert used⟩

/-- Read one word, zero where none is kept. -/
def read (st : Storage) (key : U256) : U256 := st.words.getD key 0

@[simp] theorem read_write (st : Storage) (key value other : U256) :
    (st.write key value).read other = if key = other then value else st.read other := by
  -- Erasing is how a zero word is written, and an absent word reads as zero.
  unfold write read
  split
  · next zero =>
    subst zero
    simp [Std.ExtTreeMap.getD_erase]
  · simp [Std.ExtTreeMap.getD_insert]

@[simp] theorem read_empty (key : U256) : empty.read key = 0 := by
  simp [empty, read]

theorem getElem?_words (st : Storage) (key : U256) :
    st.words[key]? = if st.read key = 0 then none else some (st.read key) := by
  cases found : st.words[key]? with
  | none => simp [read, Std.ExtTreeMap.getD_eq_getD_getElem?, found]
  | some value =>
    have used := st.nonzero key value found
    have reads : st.read key = value := by
      simp [read, Std.ExtTreeMap.getD_eq_getD_getElem?, found]
    rw [reads, if_neg used]

@[ext] theorem ext {st st' : Storage} (reads : ∀ key, st.read key = st'.read key) : st = st' := by
  obtain ⟨words, nonzero⟩ := st
  obtain ⟨words', nonzero'⟩ := st'
  congr 1
  apply Std.ExtTreeMap.ext_getElem?
  intro key
  have left := getElem?_words ⟨words, nonzero⟩ key
  have right := getElem?_words ⟨words', nonzero'⟩ key
  rw [reads key] at left
  exact left.trans right.symm

instance : DecidableEq Storage := fun st st' =>
  decidable_of_iff (st.words = st'.words)
    ⟨fun same => ext fun key => by rw [read, read, same], congrArg words⟩

end Storage

/-- One account of the world state. -/
@[ext] structure Account where
  nonce : U256
  balance : U256
  code : Bytes
  storage : Storage
  deriving DecidableEq

/-- An account as it is first created. -/
def Account.fresh (nonce balance : U256) : Account :=
  { nonce, balance, code := [], storage := .empty }

/-- The world state together with the nonce that new accounts start from. -/
structure State where
  accounts : Std.ExtTreeMap Address Account
  accountStartNonce : U256

/-- The reasons for which executing a transaction is abandoned. -/
inductive TransactionError where
  | invalidSignature
  | transactionIsUnsigned
  | invalidNonce
  | notEnoughCash
  | outOfGasIntrinsic
  | blockGasLimitReached
  | badLexicalCast
  | lengthError
  | invalidTransaction
  | invalidOperationOnSealedBlock
  deriving DecidableEq, Repr

namespace State

/-- The account at an address, if there is one. -/
def account (s : State) (a : Address) : Option Account := s.accounts[a]?

/-- Replace the account at an address. -/
def put (s : State) (a : Address) (new : Account) : State :=
  { s with accounts := s.accounts.insert a new }

/-- The balance in wei, zero where there is no account. -/
def balance (s : State) (a : Address) : U256 :=
  match s.account a with
  | some found => found.balance
  | none => 0

/-- The whole storage of an account, empty where there is no account. -/
def storageMap (s : State) (a : Address) : Storage :=
  match s.account a with
  | some found => found.storage
  | none => .empty

/-- One word of an account's storage. -/
def storage (s : State) (a : Address) (key : U256) : U256 := (s.storageMap a).read key

/-- Credit an account, creating it where there is none. -/
def addBalance (s : State) (a : Address) (amount : U256) : State :=
  match s.account a with
  | some found => s.put a { found with balance := found.balance + amount }
  | none => s.put a (Account.fresh s.accountStartNonce amount)

/-- Debit an account, refusing when the balance does not cover the amount. -/
def subBalance (s : State) (a : Address) (amount : U256) : Except TransactionError State :=
  if amount = 0 then .ok s
  else
    match s.account a with
    | none => .error .notEnoughCash
    | some found =>
      if found.balance < amount then .error .notEnoughCash
      -- The debit is a credit of the two's complement.
      else .ok (s.addBalance a (0 - amount))

/-- Write one word of an account's storage. -/
def setStorage (s : State) (a : Address) (key value : U256) : State :=
  match s.account a with
  | some found => s.put a { found with storage := found.storage.write key value }
  -- Writing through the account cache makes a blank account first.
  | none => s.put a { Account.fresh 0 0 with storage := Storage.empty.write key value }

variable (s : State) (a b : Address)

@[simp] theorem account_put (new : Account) :
    (s.put a new).account b = if a = b then some new else s.account b := by
  simp [put, account, Std.ExtTreeMap.getElem?_insert]

@[simp] theorem accountStartNonce_put (new : Account) :
    (s.put a new).accountStartNonce = s.accountStartNonce := rfl

theorem balance_addBalance (amount : U256) :
    (s.addBalance a amount).balance b =
      if a = b then s.balance a + amount else s.balance b := by
  -- The account may be there already or be created with the credit.
  by_cases same : a = b
  · subst same
    cases found : s.account a <;> simp [addBalance, balance, found, Account.fresh]
  · cases found : s.account a <;> simp [addBalance, balance, found, same]

@[simp] theorem storageMap_addBalance (amount : U256) :
    (s.addBalance a amount).storageMap b = s.storageMap b := by
  by_cases same : a = b
  · subst same
    cases found : s.account a <;> simp [addBalance, storageMap, found, Account.fresh]
  · cases found : s.account a <;> simp [addBalance, storageMap, found, same]

theorem subBalance_ok {amount : U256} (covered : amount ≤ s.balance a) :
    ∃ paid, s.subBalance a amount = .ok paid ∧
      (∀ c, paid.balance c = if a = c then s.balance a - amount else s.balance c) ∧
      ∀ c, paid.storageMap c = s.storageMap c := by
  by_cases zero : amount = 0
  · -- Nothing is debited, so the state comes back unchanged.
    subst zero
    refine ⟨s, by simp [subBalance], ?_, fun _ => rfl⟩
    intro c
    split
    · next same => subst same; simp
    · rfl
  · cases found : s.account a with
    | none =>
      -- An absent account covers only the amount zero.
      simp only [balance, found] at covered
      exact absurd (BitVec.le_zero_iff.mp covered) zero
    | some acc =>
      have holds : s.balance a = acc.balance := by simp [balance, found]
      have enough : ¬ acc.balance < amount := by
        rw [holds] at covered
        exact BitVec.not_lt.mpr covered
      refine ⟨s.addBalance a (0 - amount), ?_, ?_, ?_⟩
      · rw [subBalance, if_neg zero, found]
        simp [enough]
      · intro c
        rw [balance_addBalance]
        split
        · simp [BitVec.sub_eq_add_neg]
        · rfl
      · intro c
        simp

theorem storageMap_setStorage (key value : U256) :
    (s.setStorage a key value).storageMap b =
      if a = b then (s.storageMap a).write key value else s.storageMap b := by
  by_cases same : a = b
  · subst same
    cases found : s.account a <;> simp [setStorage, storageMap, found]
  · cases found : s.account a <;> simp [setStorage, storageMap, found, same]

@[simp] theorem balance_setStorage (key value : U256) :
    (s.setStorage a key value).balance b = s.balance b := by
  by_cases same : a = b
  · subst same
    cases found : s.account a <;> simp [setStorage, balance, found, Account.fresh]
  · cases found : s.account a <;> simp [setStorage, balance, found, same]

end State

end Etiam
