import EventRelay.Chain.Sending
import EventRelay.Chain.Waiting
import EventRelay.Dispatch

/-!
# States of an attempt

An attempt to relay an event goes from the matched event over the submitted and the mined target
transaction to a terminal state, which says how it ended. `State.isTerminal` and `State.isFailure`
sort the states; each has a name under which it is counted.
-/

namespace EventRelay.Relay

/-- What goes wrong in a relay. -/
inductive RelayError
  | decode (e : Abi.DecodeError)
  | project (e : MissingField)
  | call (e : Abi.CallError)
  | chain (e : ChainError)
  | wait (e : WaitError)
  /-- The transaction is part of a block but took no effect. -/
  | reverted (hash : Word)
  /-- The subscription cannot be opened; the text says why. -/
  | subscription (text : String)

/-- The text of the error. -/
def RelayError.message : RelayError → String
  | .decode e => e.message
  | .project e => e.message
  | .call e => e.message
  | .chain e => e.message
  | .wait e => e.message
  | .reverted hash => "Transaction " ++ hash.hex ++ " reverted"
  | .subscription text => "Subscription error: " ++ text

/-- What is known about a transaction of the relay. -/
inductive Status
  | submitted
  | mined
  | failed
  deriving DecidableEq

/-- The name of a status. -/
def Status.name : Status → String
  | .submitted => "submitted"
  | .mined => "mined"
  | .failed => "failed"

/-- A transaction that the relay submitted. -/
structure Pending where
  hash : Word
  nonce : UInt64
  side : Side
  status : Status
  rule : Rule

/-- Where an attempt stands. -/
inductive State
  /-- The event has a rule and could be decoded. -/
  | matched (event : Log) (decoded : Abi.DecodedLog) (rule : Rule)
  /-- The target call was taken by the node. -/
  | submitted (p : Pending)
  /-- The target call took effect. -/
  | mined (p : Pending) (r : Receipt)
  /-- Every log of the receipt that asks for a callback has one that took effect. -/
  | calledBack (tx : Word) (callbacks : List Pending)
  /-- Nothing was to be called back. -/
  | noCallback (tx : Word)
  /-- The target call could not be made or was not taken. -/
  | submitFailed (e : RelayError)
  /-- The target call has no receipt that says it took effect. -/
  | receiptFailed (p : Pending) (e : RelayError)
  /-- A log is not what its event says. -/
  | decodeFailed (e : RelayError)
  /-- A callback could not be made, was not taken, or took no effect. -/
  | callbackFailed (tx : Word) (e : RelayError)

namespace State

/-- Whether the attempt is over. -/
def isTerminal : State → Bool
  | .matched .. | .submitted .. | .mined .. => false
  | _ => true

/-- The error of an attempt that failed. -/
def error? : State → Option RelayError
  | .submitFailed e => some e
  | .receiptFailed _ e => some e
  | .decodeFailed e => some e
  | .callbackFailed _ e => some e
  | _ => none

/-- Whether the attempt failed. -/
def isFailure (s : State) : Bool := s.error?.isSome

/-- The name of the state. -/
def name : State → String
  | .matched .. => "event_matched"
  | .submitted .. => "tx_submitted"
  | .mined .. => "tx_mined"
  | .calledBack .. => "callback_dispatched"
  | .noCallback .. => "no_callback"
  | .submitFailed .. => "submit_failed"
  | .receiptFailed .. => "receipt_failed"
  | .decodeFailed .. => "decode_failed"
  | .callbackFailed .. => "callback_failed"

/-- An attempt that failed is over. -/
theorem isTerminal_of_isFailure {s : State} (h : s.isFailure = true) : s.isTerminal = true := by
  cases s <;> simp_all [isFailure, error?, isTerminal]

end State

end EventRelay.Relay
