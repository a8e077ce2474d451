import Etiam.Library.Runs
import Etiam.State.Rollback

/-! Transactions as programs over the operations of a state, with one savepoint each. -/

namespace Etiam

namespace CachedState

/-- What an operation answers to its caller. -/
def Operation.Answer : Operation → Type
  | .subBalance _ _ => Except TransactionError Unit
  | .addressInUse _ => Bool
  | .accountNonemptyAndExisting _ => Bool
  | .addressHasCode _ => Bool
  | .balance _ => U256
  | .getNonce _ => U256
  | .code _ => Bytes
  | .storage _ _ => U256
  | .storageMap _ => Storage
  | _ => Unit

/-- The address that an operation is about. -/
def Operation.address : Operation → Address
  | .addBalance a _ => a
  | .subBalance a _ => a
  | .incNonce a => a
  | .setNonce a _ => a
  | .createContract a => a
  | .setStorage a _ _ => a
  | .clearStorage a => a
  | .setCode a _ => a
  | .addressInUse a => a
  | .accountNonemptyAndExisting a => a
  | .addressHasCode a => a
  | .balance a => a
  | .getNonce a => a
  | .code a => a
  | .storage a _ => a
  | .storageMap a => a

/-- The answer of an operation. -/
def answer (s : CachedState) : (op : Operation) → op.Answer
  | .addBalance _ _ => ()
  | .subBalance a value => (s.subBalance a value).1
  | .incNonce _ => ()
  | .setNonce _ _ => ()
  | .createContract _ => ()
  | .setStorage _ _ _ => ()
  | .clearStorage _ => ()
  | .setCode _ _ => ()
  | .addressInUse a => (s.addressInUse a).1
  | .accountNonemptyAndExisting a => (s.accountNonemptyAndExisting a).1
  | .addressHasCode a => (s.addressHasCode a).1
  | .balance a => (s.balance a).1
  | .getNonce a => (s.getNonce a).1
  | .code a => (s.code a).1
  | .storage a key => (s.storage a key).1
  | .storageMap a => (s.storageMap a).1

end CachedState

/-- What the executor of a transaction does with the state. -/
inductive Command where
  | perform (op : CachedState.Operation)
  /-- Ask for the nonce that new accounts start from. -/
  | requireAccountStartNonce
  /-- Remember the present point of the log. -/
  | savepoint
  /-- Roll back to the point remembered last. -/
  | rollback

/-- What a command answers to its caller. -/
def Command.Answer : Command → Type
  | .perform op => op.Answer
  | .requireAccountStartNonce => U256
  | .savepoint => Unit
  | .rollback => Unit

/-- The state that a transaction works on, with the savepoint that was taken last. -/
structure Session where
  state : CachedState
  savepoint : Option ℕ

namespace Session

/-- A transaction that begins on a state. -/
def start (s : CachedState) : Session := ⟨s, none⟩

/-- Carry out one command. -/
def handle : (command : Command) → Session → command.Answer × Session
  | .perform op, s => (s.state.answer op, { s with state := s.state.perform op })
  | .requireAccountStartNonce, s => (s.state.accountStartNonce, s)
  | .savepoint, s => ((), { s with savepoint := s.state.savepoint })
  | .rollback, s => ((), { s with state := s.state.rollback (s.savepoint.getD 0) })

end Session

/-- The body of a transaction, from its first command to its result. -/
abbrev StateProgram := Calls Command.Answer

end Etiam
