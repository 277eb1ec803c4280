import EventRelay.Chain.Error
import EventRelay.Chain.Transaction
import EventRelay.Log.Filter
import EventRelay.Receipt

/-!
# What a node is asked

A `Query` is a question to a node; `Query.Reply` is what an answer to it holds.
-/

namespace EventRelay

/-- A question to a node. -/
inductive Query
  | chainId
  /-- How many transactions an account has sent, those not yet in a block among them. -/
  | transactionCount (account : Address)
  | gasPrice
  /-- The number of the newest block. -/
  | blockNumber
  /-- To take a transaction. -/
  | submit (t : SignedTransaction)
  /-- The receipt of a transaction, if there is one yet. -/
  | receipt (hash : Word)
  /-- To send the logs that a filter selects. -/
  | subscribe (filter : LogFilter)
  deriving DecidableEq

/-- What an answer to a question holds. -/
abbrev Query.Reply : Query → Type
  | .chainId => UInt64
  | .transactionCount _ => UInt64
  | .gasPrice => Nat
  | .blockNumber => UInt64
  | .submit _ => Word
  | .receipt _ => Option Receipt
  | .subscribe _ => Unit

end EventRelay
