import EventRelay.Chain.Activity

/-!
# Sending a call

A call is sent under the next nonce of the account. One call at a time has the right to send, and
whoever gives the right back leaves the nonce after his own, or nothing when the node did not take
his transaction; then the next call asks the node. A failure to learn the nonce or the price, or to
sign, leaves what was known.
-/

namespace EventRelay

/-- An account of one side, and how its transactions pay. -/
structure Account where
  side : Side
  key : Secp256k1.PrivateKey
  chainId : UInt64
  gasLimit : UInt64
  /-- The price of gas, where the node is not asked for it. -/
  gasPrice : Option Nat
  /-- The only chain that the key signs for, where it is bound to one. -/
  boundTo : Option UInt64

/-- The address of the account. -/
def Account.address (a : Account) : Address := a.key.address

/-- Why nothing can be signed for the account: its key is bound to another chain. -/
def Account.signingError? (a : Account) : Option ChainError :=
  match a.boundTo with
  | some bound =>
    if a.chainId = bound then none
    else some (.internal ("failed to sign transaction: transaction-provided chain ID (" ++
      toString a.chainId ++ ") does not match the signer's (" ++ toString bound ++ ")"))
  | none => none

/-- A transaction that a node took. -/
structure Submitted where
  hash : Word
  nonce : UInt64
  deriving DecidableEq

/-- A call on its way. -/
inductive Sending
  /-- It waits for the right to send. -/
  | queued (c : Call)
  /-- It asks for the nonce. -/
  | counting (c : Call)
  /-- It asks for the price; `known` is the nonce that was left to it. -/
  | pricing (c : Call) (known : Option UInt64) (nonce : UInt64)
  /-- The node is to take it. -/
  | submitting (t : SignedTransaction)
  /-- The node took it. -/
  | accepted (s : Submitted)
  /-- It gives the right back. -/
  | leaving (next : Option UInt64) (result : Except ChainError Submitted)
  | done (result : Except ChainError Submitted)

namespace Sending

/-- The transaction of a call. -/
def sign (a : Account) (c : Call) (nonce : UInt64) (price : Nat) : SignedTransaction :=
  Transaction.sign ⟨a.chainId, nonce, price, a.gasLimit, c⟩ a.key

/-- Goes on with a nonce and a price; `known` is the nonce that was left. -/
def withPrice (a : Account) (c : Call) (known : Option UInt64) (nonce : UInt64) (price : Nat) :
    Sending :=
  match a.signingError? with
  | some e => .leaving known (.error e)
  | none => .submitting (sign a c nonce price)

/-- Goes on with a nonce. -/
def withNonce (a : Account) (c : Call) (known : Option UInt64) (nonce : UInt64) : Sending :=
  match a.gasPrice with
  | some price => withPrice a c known nonce price
  | none => .pricing c known nonce

/-- What a call on its way wants next. -/
def demand (a : Account) : Sending → Demand Sending
  | .queued c => .acquire a.side fun known =>
    match known with
    | some nonce => withNonce a c known nonce
    | none => .counting c
  | .counting c => .ask a.side (.transactionCount a.address) fun r =>
    match r with
    | .ok nonce => withNonce a c none nonce
    | .error e => .leaving none (.error e)
  | .pricing c known nonce => .ask a.side .gasPrice fun r =>
    match r with
    | .ok price => withPrice a c known nonce price
    | .error e => .leaving known (.error e)
  | .submitting t => .ask a.side (.submit t) fun r =>
    match r with
    | .ok hash => .accepted ⟨hash, t.body.nonce⟩
    | .error e => .leaving none (.error e)
  | .accepted s => .count (.submitted a.side.name) (.leaving (some (s.nonce + 1)) (.ok s))
  | .leaving next result => .release a.side next (.done result)
  | .done _ => .nothing

/-- A call on its way is neither hurried nor held up. -/
def turn (a : Account) (s : Sending) : Turn Sending := .plain (s.demand a)

end Sending

end EventRelay
