import Etiam.Library.Table
import Etiam.State.World

/-! The account cache that a state keeps over its trie, with a log to take changes back. -/

namespace Etiam

/-- The words of a storage trie with an overlay of newer words on top. -/
def Storage.overlay (base : Storage) (words : Std.ExtTreeMap U256 U256) : Storage :=
  words.toList.foldl (fun st word => st.write word.1 word.2) base

@[simp] theorem Storage.read_overlay (base : Storage) (words : Std.ExtTreeMap U256 U256)
    (key : U256) : (base.overlay words).read key = words[key]?.getD (base.read key) := by
  rw [overlay, get_foldl_toList words _ Storage.read (fun value _ => value)
    (by simp) (fun st word value other apart => by simp [apart])]
  cases words[key]? <;> rfl

/-- An account in the cache; without arguments it is a dead one. -/
@[ext] structure CachedAccount where
  isAlive : Bool := false
  isUnchanged : Bool := false
  nonce : U256 := 0
  balance : U256 := 0
  /-- The words of the trie that the account's storage root names. -/
  baseRoot : Storage := .empty
  /-- The code that the account's code hash names. -/
  code : Bytes := []
  storageOverlay : Std.ExtTreeMap U256 U256 := ∅

namespace CachedAccount

/-- An account made with a nonce and an endowment, taken to be changed. -/
def made (nonce balance : U256) : CachedAccount := { isAlive := true, nonce, balance }

/-- An account as it is read from the trie. -/
def loaded (stored : Account) : CachedAccount :=
  { isAlive := true, isUnchanged := true, nonce := stored.nonce, balance := stored.balance,
    baseRoot := stored.storage, code := stored.code }

/-- Kill the account, as a contract that destroys itself or an account found empty. -/
def kill (e : CachedAccount) : CachedAccount :=
  { e with isAlive := false, isUnchanged := false, storageOverlay := ∅, code := [],
           baseRoot := .empty, balance := 0, nonce := 0 }

/-- Whether the account may differ from what the trie holds. -/
def isDirty (e : CachedAccount) : Bool := !e.isUnchanged

/-- Take the mark of a change back. -/
def untouch (e : CachedAccount) : CachedAccount := { e with isUnchanged := true }

/-- Whether nonce, balance and code are all empty, whatever the storage holds. -/
def isEmpty (e : CachedAccount) : Bool := e.nonce == 0 && e.balance == 0 && e.code == []

/-- Add to the balance. -/
def addBalance (e : CachedAccount) (value : U256) : CachedAccount :=
  { e with balance := e.balance + value, isUnchanged := false }

/-- Overwrite the nonce. -/
def setNonce (e : CachedAccount) (nonce : U256) : CachedAccount :=
  { e with nonce, isUnchanged := false }

/-- Count one more transaction. -/
def incNonce (e : CachedAccount) : CachedAccount := e.setNonce (e.nonce + 1)

/-- Write a word of the storage into the overlay. -/
def setStorage (e : CachedAccount) (key value : U256) : CachedAccount :=
  { e with storageOverlay := e.storageOverlay.insert key value, isUnchanged := false }

/-- Keep a word that was read, which is not a change. -/
def setStorageCache (e : CachedAccount) (key value : U256) : CachedAccount :=
  { e with storageOverlay := e.storageOverlay.insert key value }

/-- Put another storage trie under the account and drop the overlay. -/
def setStorageRoot (e : CachedAccount) (root : Storage) : CachedAccount :=
  { e with storageOverlay := ∅, baseRoot := root, isUnchanged := false }

/-- Empty the storage. -/
def clearStorage (e : CachedAccount) : CachedAccount := e.setStorageRoot .empty

/-- Overwrite the code, which does not count as a change. -/
def setCode (e : CachedAccount) (code : Bytes) : CachedAccount := { e with code }

/-- The account as a commit writes it to the trie. -/
def content (e : CachedAccount) : Account where
  nonce := e.nonce
  balance := e.balance
  code := e.code
  storage := e.baseRoot.overlay e.storageOverlay

end CachedAccount

/-- One entry of the change log, with what is needed to take it back. -/
inductive Change where
  | touch (a : Address)
  | balance (a : Address) (value : U256)
  | nonce (a : Address) (old : U256)
  | storage (a : Address) (key old : U256)
  | storageRoot (a : Address) (old : Storage)
  | code (a : Address) (old : Bytes)
  | create (a : Address)

/-- What a commit does with accounts that are empty. -/
inductive CommitBehaviour where
  | keepEmptyAccounts
  | removeEmptyAccounts
  deriving DecidableEq

/-- The state of the accounts: a trie, a cache over it, and the log of changes to the cache. -/
structure CachedState where
  /-- The accounts of the trie that the state's root names. -/
  state : Std.ExtTreeMap Address Account
  cache : Std.ExtTreeMap Address CachedAccount := ∅
  unchangedCacheEntries : List Address := []
  nonExistingAccountsCache : Std.ExtTreeSet Address := ∅
  /-- The log, with the newest entry first. -/
  changeLog : List Change := []
  accountStartNonce : U256
  /-- The numbers that the random engine is going to give. -/
  engine : ℕ → ℕ

namespace CachedState

/-- The cache entry of an address, made on the spot where there is none. -/
def entry (s : CachedState) (a : Address) : CachedAccount := s.cache[a]?.getD {}

/-- Replace the cache entry of an address. -/
def put (s : CachedState) (a : Address) (e : CachedAccount) : CachedState :=
  { s with cache := s.cache.insert a e }

/-- Note a change. -/
def log (s : CachedState) (change : Change) : CachedState :=
  { s with changeLog := change :: s.changeLog }

/-- Drop one of the unchanged entries, chosen at random, from the cache. -/
def evict (s : CachedState) : CachedState :=
  let entries := s.unchangedCacheEntries
  let randomIndex := s.engine 0 % entries.length
  let addr := entries.getD randomIndex 0
  let kept := (entries.set randomIndex (entries.getLastD 0)).dropLast
  let s := { s with unchangedCacheEntries := kept, engine := fun n => s.engine (n + 1) }
  match s.cache[addr]? with
  | some found => if found.isDirty then s else { s with cache := s.cache.erase addr }
  | none => s

/-- Drop unchanged entries until there are few enough of them. -/
def clearCacheIfTooLarge (s : CachedState) : CachedState :=
  evict^[s.unchangedCacheEntries.length - 1000] s

/-- Find the account of an address, loading it into the cache where the trie holds it. -/
def account (s : CachedState) (a : Address) : Option CachedAccount × CachedState :=
  match s.cache[a]? with
  | some found => (some found, s)
  | none =>
    if a ∈ s.nonExistingAccountsCache then (none, s)
    else
      match s.state[a]? with
      | none =>
        (none, { s with nonExistingAccountsCache := s.nonExistingAccountsCache.insert a })
      | some stored =>
        let s := s.clearCacheIfTooLarge
        let s := s.put a (.loaded stored)
        (some (.loaded stored),
          { s with unchangedCacheEntries := s.unchangedCacheEntries ++ [a] })

/-- Whether there is an account at an address. -/
def addressInUse (s : CachedState) (a : Address) : Bool × CachedState :=
  ((s.account a).1.isSome, (s.account a).2)

/-- Whether there is an account at an address that is not empty. -/
def accountNonemptyAndExisting (s : CachedState) (a : Address) : Bool × CachedState :=
  ((s.account a).1.any (!·.isEmpty), (s.account a).2)

/-- Whether there is an account with code at an address. -/
def addressHasCode (s : CachedState) (a : Address) : Bool × CachedState :=
  ((s.account a).1.any (·.code != []), (s.account a).2)

/-- The balance, zero where there is no account. -/
def balance (s : CachedState) (a : Address) : U256 × CachedState :=
  ((s.account a).1.elim 0 (·.balance), (s.account a).2)

/-- The nonce, the start nonce where there is no account. -/
def getNonce (s : CachedState) (a : Address) : U256 × CachedState :=
  ((s.account a).1.elim s.accountStartNonce (·.nonce), (s.account a).2)

/-- The code, empty where there is no account. -/
def code (s : CachedState) (a : Address) : Bytes × CachedState :=
  ((s.account a).1.elim [] (·.code), (s.account a).2)

/-- One word of the storage, kept in the overlay once it is read. -/
def storage (s : CachedState) (a : Address) (key : U256) : U256 × CachedState :=
  match s.account a with
  | (none, s) => (0, s)
  | (some found, s) =>
    match found.storageOverlay[key]? with
    | some value => (value, s)
    | none =>
      let value := found.baseRoot.read key
      (value, s.put a (found.setStorageCache key value))

/-- The whole storage, empty where there is no account. -/
def storageMap (s : CachedState) (a : Address) : Storage × CachedState :=
  ((s.account a).1.elim .empty (·.content.storage), (s.account a).2)

/-- Put a new account into the cache. -/
def createAccount (s : CachedState) (a : Address) (new : CachedAccount) : CachedState :=
  { s.put a new with
    nonExistingAccountsCache := s.nonExistingAccountsCache.erase a
    changeLog := .create a :: s.changeLog }

/-- Make the account of a new contract. -/
def createContract (s : CachedState) (a : Address) : CachedState :=
  s.createAccount a (.made s.accountStartNonce 0)

/-- Count one more transaction of an account. -/
def incNonce (s : CachedState) (a : Address) : CachedState :=
  match s.account a with
  | (some found, s) => (s.put a found.incNonce).log (.nonce a found.nonce)
  -- Possible where a transaction has gas price zero.
  | (none, s) => s.createAccount a (.made (s.accountStartNonce + 1) 0)

/-- Overwrite the nonce of an account. -/
def setNonce (s : CachedState) (a : Address) (nonce : U256) : CachedState :=
  match s.account a with
  | (some found, s) => (s.put a (found.setNonce nonce)).log (.nonce a found.nonce)
  | (none, s) => s.createAccount a (.made nonce 0)

/-- Add to the balance of an account. -/
def addBalance (s : CachedState) (a : Address) (amount : U256) : CachedState :=
  let s :=
    match s.account a with
    | (some found, s) =>
      -- The first touch of an empty account is logged, since touched empty accounts are removed.
      let s := if !found.isDirty && found.isEmpty then s.log (.touch a) else s
      s.put a (found.addBalance amount)
    | (none, s) => s.createAccount a (.made s.accountStartNonce amount)
  if amount = 0 then s else s.log (.balance a amount)

/-- Take from the balance of an account, throwing where it does not cover the value. -/
def subBalance (s : CachedState) (a : Address) (value : U256) :
    Except TransactionError Unit × CachedState :=
  if value = 0 then (.ok (), s)
  else
    match s.account a with
    | (none, s) => (.error .notEnoughCash, s)
    | (some found, s) =>
      if found.balance < value then (.error .notEnoughCash, s)
      else (.ok (), s.addBalance a (0 - value))

/-- Delete an account. -/
def kill (s : CachedState) (a : Address) : CachedState :=
  match s.account a with
  | (some found, s) => s.put a found.kill
  | (none, s) => s

/-- Write one word of an account's storage. -/
def setStorage (s : CachedState) (a : Address) (key value : U256) : CachedState :=
  let (old, s) := s.storage a key
  let s := s.log (.storage a key old)
  -- Where there is no account this makes a dead one.
  s.put a ((s.entry a).setStorage key value)

/-- Empty the storage of an account. -/
def clearStorage (s : CachedState) (a : Address) : CachedState :=
  -- The entry is made on the spot even where the trie holds the account.
  let s := s.put a (s.entry a)
  let old := (s.entry a).baseRoot
  if old.words.isEmpty then s
  else (s.put a (s.entry a).clearStorage).log (.storageRoot a old)

/-- Overwrite the code of an account. -/
def setCode (s : CachedState) (a : Address) (code : Bytes) : CachedState :=
  let (old, s) := s.code a
  let s := s.log (.code a old)
  s.put a ((s.entry a).setCode code)

/-- The point in the log to roll back to. -/
def savepoint (s : CachedState) : ℕ := s.changeLog.length

/-- Take one change back. -/
def undo (s : CachedState) : Change → CachedState
  | .storage a key old => s.put a ((s.entry a).setStorage key old)
  | .storageRoot a old => s.put a ((s.entry a).setStorageRoot old)
  | .balance a value => s.put a ((s.entry a).addBalance (0 - value))
  | .nonce a old => s.put a ((s.entry a).setNonce old)
  | .create a => { s with cache := s.cache.erase a }
  | .code a old => s.put a ((s.entry a).setCode old)
  | .touch a =>
    { s.put a (s.entry a).untouch with
      unchangedCacheEntries := s.unchangedCacheEntries ++ [a] }

/-- Take the newest change back and drop it from the log. -/
def undoNewest (s : CachedState) : CachedState :=
  match s.changeLog with
  | [] => s
  | change :: rest => { s.undo change with changeLog := rest }

/-- Take every change back that was made after a savepoint. -/
def rollback (s : CachedState) (savepoint : ℕ) : CachedState :=
  undoNewest^[s.changeLog.length - savepoint] s

/-- Kill the changed accounts that are empty. -/
def removeEmptyAccounts (s : CachedState) : CachedState :=
  { s with cache := s.cache.map fun _ e => if e.isDirty && e.isEmpty then e.kill else e }

/-- Write one cached account to the trie. -/
def commitEntry (state : Std.ExtTreeMap Address Account) (entry : Address × CachedAccount) :
    Std.ExtTreeMap Address Account :=
  if entry.2.isDirty then
    if entry.2.isAlive then state.insert entry.1 entry.2.content else state.erase entry.1
  else state

/-- Write the cache to the trie and start with an empty cache. -/
def commit (s : CachedState) (behaviour : CommitBehaviour) : CachedState :=
  let s := if behaviour = .removeEmptyAccounts then s.removeEmptyAccounts else s
  { s with
    state := s.cache.toList.foldl commitEntry s.state
    changeLog := []
    cache := ∅
    unchangedCacheEntries := [] }

end CachedState

end Etiam
