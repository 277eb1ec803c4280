import EventRelay.Chain.Rlp
import EventRelay.Secp256k1.Signing

/-!
# Transactions

A transaction calls a contract, sends no value, and pays a price for its gas. It is signed for one
chain (EIP-155): the chain is part of what is signed and of the number `v` beside the signature.
-/

namespace EventRelay

/-- A call of a contract. -/
structure Call where
  contract : Address
  input : Bytes
  deriving DecidableEq

/-- A transaction that calls a contract. -/
structure Transaction where
  chainId : UInt64
  nonce : UInt64
  gasPrice : Nat
  gasLimit : UInt64
  call : Call
  deriving DecidableEq

namespace Transaction

/-- The items that say what the transaction does; the fifth is the value, which is zero. -/
def items (t : Transaction) : List Bytes :=
  [Rlp.ofNat t.nonce.toNat, Rlp.ofNat t.gasPrice, Rlp.ofNat t.gasLimit.toNat,
    Rlp.ofBytes t.call.contract.toBytes, Rlp.ofNat 0, Rlp.ofBytes t.call.input]

/-- What is signed: the transaction for its chain. -/
def digest (t : Transaction) : Word :=
  Word.keccak (Rlp.ofList (t.items ++ [Rlp.ofNat t.chainId.toNat, Rlp.ofNat 0, Rlp.ofNat 0]))

end Transaction

/-- A transaction with its signature. -/
structure SignedTransaction where
  body : Transaction
  signature : Secp256k1.Signature
  deriving DecidableEq

namespace SignedTransaction

/-- The number that tells the chain and the parity of the signature. -/
def v (t : SignedTransaction) : Nat :=
  35 + 2 * t.body.chainId.toNat + if t.signature.parity then 1 else 0

/-- The bytes that a node takes. -/
def toBytes (t : SignedTransaction) : Bytes :=
  Rlp.ofList
    (t.body.items ++ [Rlp.ofNat t.v, Rlp.ofNat t.signature.r, Rlp.ofNat t.signature.s])

/-- The digest that names the transaction. -/
def hash (t : SignedTransaction) : Word := Word.keccak t.toBytes

end SignedTransaction

/-- Signs a transaction. -/
def Transaction.sign (t : Transaction) (key : Secp256k1.PrivateKey) : SignedTransaction :=
  ⟨t, key.sign t.digest⟩

end EventRelay
