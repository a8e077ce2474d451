import Etiam.State.Program

/-! Executing one transaction: what it pays, what it runs, and who earns the fees. -/

namespace Etiam

/-- A transaction, with the account that its signature belongs to. -/
structure Transaction where
  nonce : U256
  gasPrice : U256
  gas : U256
  /-- The receiver, none where a contract is to be created. -/
  receiveAddress : Option Address
  value : U256
  data : Bytes
  hasZeroSignature : Bool
  /-- What is recovered from a signature that is not zero. -/
  recovered : Except TransactionError Address

namespace Transaction

/-- The account that a transaction comes from. -/
def sender (t : Transaction) : Except TransactionError Address :=
  if t.hasZeroSignature then .ok maxAddress else t.recovered

/-- What a transaction may cost, as an integer without bound. -/
def totalCost (t : Transaction) : ℕ := t.value.toNat + t.gas.toNat * t.gasPrice.toNat

end Transaction

/-- What a transaction sees of the block that it is in and of the chain before it. -/
structure EnvInfo where
  author : Address
  number : U256
  gasLimit : U256
  parentHash : Hash
  prevTimestamp : U256
  /-- The gas that the transactions before it have used. -/
  gasUsed : U256

/-- One entry of the logs of a contract. -/
structure LogEntry where
  address : Address
  topics : List Hash
  data : Bytes

/-- What contract code leaves behind besides its changes to the state. -/
structure SubState where
  suicides : List Address := []
  logs : List LogEntry := []
  refunds : U256 := 0

/-- A run of contract code that is scheduled. -/
structure ExtVM where
  myAddress : Address
  caller : Address
  value : U256
  gasPrice : U256
  data : Bytes
  code : Bytes

/-- How a run of contract code ends; any other exception ends the process. -/
inductive VMOutcome where
  | done (gas : U256) (output : Bytes) (sub : SubState)
  | revertInstruction (gas : U256)
  | vmException

/-- The gas schedule, the precompiled contracts and the virtual machine of a chain. -/
structure Engine where
  baseGasRequired : Transaction → ℕ
  verifyTransaction : Transaction → EnvInfo → Except TransactionError Unit
  isPrecompiled : Address → U256 → Bool
  costOfPrecompiled : Address → Bytes → U256 → ℕ
  executePrecompiled : Address → Bytes → U256 → Address →
    StateProgram (Except TransactionError (Bool × Bytes))
  /-- The address of the contract that an account makes at a nonce. -/
  contractAddress : Address → U256 → Address
  exec : EnvInfo → ExtVM → (gas : U256) → StateProgram VMOutcome
  maxCodeSize : ℕ
  createDataGas : ℕ
  exceptionalFailedCodeDeposit : Bool
  suicideRefundGas : ℕ
  blockReward : U256 → U256

/-- A part of the executor, which may throw. -/
abbrev ExecM := ExceptT TransactionError StateProgram

namespace ExecM

open CachedState (Operation)

/-- Carry out a command. -/
def command (c : Command) : ExecM c.Answer := ExceptT.lift (.call c .ret)

/-- Carry out an operation on the state. -/
def perform (op : Operation) : ExecM op.Answer := command (.perform op)

/-- Debit an account, throwing where it does not cover the value. -/
def subBalance (a : Address) (value : U256) : ExecM Unit :=
  ExceptT.mk (.call (.perform (.subBalance a value)) .ret)

/-- Move wei from one account to another. -/
def transferBalance (sender receiver : Address) (value : U256) : ExecM Unit := do
  subBalance sender value
  perform (.addBalance receiver value)

/-- Go on only if a check that needs no state has passed. -/
def check {α : Type} (outcome : Except TransactionError α) : ExecM α := ExceptT.mk (.ret outcome)

end ExecM

/-- How far a transaction has come when only contract code may be left to run. -/
structure Progress where
  gas : U256 := 0
  /-- Some exception was met that does not abandon the transaction. -/
  excepted : Bool := false
  ext : Option ExtVM := none
  sub : SubState := {}

/-- What an executed transaction comes to. -/
structure Execution where
  statusCode : Bool
  gasUsed : U256
  logs : List LogEntry
  /-- The accounts that are to be deleted. -/
  suicides : List Address

namespace Executive

open ExecM

variable (engine : Engine) (env : EnvInfo) (t : Transaction)

/-- Check the transaction against the state, and find what its gas costs. -/
def initializeTransaction : ExecM U256 := do
  check (engine.verifyTransaction t env)
  if t.hasZeroSignature then return 0
  let sender ← check t.sender
  let nonceReq : U256 ← perform (.getNonce sender)
  if t.nonce ≠ nonceReq then throw .invalidNonce
  let balance : U256 ← perform (.balance sender)
  if balance.toNat < t.totalCost then throw .notEnoughCash
  return t.gas * t.gasPrice

/-- Count the transaction, unless nobody has signed it. -/
def countNonce (sender : Address) : ExecM Unit :=
  if sender = maxAddress then pure () else perform (.incNonce sender)

/-- Call an account: a precompiled contract, a contract with code, or a mere transfer. -/
def call (sender receiver : Address) (gas : U256) : ExecM Progress := do
  countNonce sender
  command .savepoint
  if engine.isPrecompiled receiver env.number then
    let cost := engine.costOfPrecompiled receiver t.data env.number
    if gas.toNat < cost then
      -- The account is touched, so that it is removed where it is empty.
      perform (.addBalance receiver 0)
      return { excepted := true }
    else
      let (success, _) ←
        ExceptT.mk (engine.executePrecompiled receiver t.data env.number sender)
      if success then
        transferBalance sender receiver t.value
        return { gas := gas - BitVec.ofNat 256 cost }
      else return { excepted := true }
  else
    let hasCode : Bool ← perform (.addressHasCode receiver)
    if hasCode then
      let code : Bytes ← perform (.code receiver)
      transferBalance sender receiver t.value
      return { gas, ext := some ⟨receiver, sender, t.value, t.gasPrice, t.data, code⟩ }
    else
      transferBalance sender receiver t.value
      return { gas }

/-- Whether an address cannot be taken by a new contract. -/
def addressUsed (a : Address) : ExecM Bool := do
  let hasCode : Bool ← perform (.addressHasCode a)
  if hasCode then return true
  let nonce : U256 ← perform (.getNonce a)
  return 0 < nonce

/-- Make the account of a new contract, whose code is run afterwards. -/
def create (sender : Address) (gas : U256) : ExecM Progress := do
  let nonce : U256 ← perform (.getNonce sender)
  let newAddress := engine.contractAddress sender nonce
  countNonce sender
  command .savepoint
  let accountAlreadyExist ← addressUsed newAddress
  if accountAlreadyExist then
    command .rollback
    return { excepted := true }
  transferBalance sender newAddress t.value
  let start : U256 ← command .requireAccountStartNonce
  perform (.setNonce newAddress (start + 1))
  if t.data = [] then return { gas }
  return { gas, ext := some ⟨newAddress, sender, t.value, t.gasPrice, [], t.data⟩ }

/-- Pay for the gas, then call or create. -/
def execute (gasCost : U256) : ExecM Progress := do
  let sender ← check t.sender
  subBalance sender gasCost
  let gas := t.gas - BitVec.ofNat 256 (engine.baseGasRequired t)
  match t.receiveAddress with
  | none => create engine t sender gas
  | some receiver => call engine env t sender receiver gas

/-- Undo what was done since the savepoint. -/
def revert (ext : ExtVM) (gas : U256) : ExecM Progress := do
  command .rollback
  return { gas, excepted := true, ext := some ext }

/-- Store what the code of a new contract has returned. -/
def deposit (ext : ExtVM) (gas : U256) (output : Bytes) (sub : SubState) : ExecM Progress := do
  let cost := output.length * engine.createDataGas
  if engine.maxCodeSize < output.length then revert ext 0
  else if cost ≤ gas.toNat then
    perform (.setCode ext.myAddress output)
    return { gas := gas - BitVec.ofNat 256 cost, ext := some ext, sub }
  else if engine.exceptionalFailedCodeDeposit then revert ext 0
  else
    perform (.setCode ext.myAddress [])
    return { gas, ext := some ext, sub }

/-- Run the contract code that is scheduled. -/
def go (p : Progress) : ExecM Progress := do
  match p.ext with
  | none => return p
  | some ext =>
    if t.receiveAddress = none then perform (.clearStorage ext.myAddress)
    match ← ExceptT.lift (engine.exec env ext p.gas) with
    | .done gas output sub =>
      if t.receiveAddress = none then deposit engine ext gas output sub
      else return { gas, ext := some ext, sub }
    | .revertInstruction gas => revert ext gas
    | .vmException => revert ext 0

/-- Give back what is left of the gas and pay the author of the block. -/
def finalize (p : Progress) : ExecM Execution := do
  let refunds := p.sub.refunds +
    BitVec.ofNat 256 (engine.suicideRefundGas * p.sub.suicides.length)
  let half := (t.gas - p.gas) / 2
  let refunded := if p.ext.isNone then 0 else if refunds < half then refunds else half
  let gas := p.gas + refunded
  let sender ← check t.sender
  perform (.addBalance sender (gas * t.gasPrice))
  perform (.addBalance env.author ((t.gas - gas) * t.gasPrice))
  return { statusCode := !p.excepted, gasUsed := t.gas - gas, logs := p.sub.logs,
           suicides := p.sub.suicides }

/-- The whole course of a transaction. -/
def executeTransaction : ExecM Execution := do
  let gasCost ← initializeTransaction engine env t
  let p ← execute engine env t gasCost
  let p ← go engine env t p
  finalize engine env t p

end Executive

end Etiam
