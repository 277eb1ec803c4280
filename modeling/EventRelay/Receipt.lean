import EventRelay.Log

/-!
# Receipts

A receipt is what a node says about a transaction that is part of a block.
-/

namespace EventRelay

/-- The receipt of a transaction. -/
structure Receipt where
  hash : Word
  block : Option UInt64
  /-- Whether the transaction took effect. -/
  status : Bool
  logs : List Log
  deriving DecidableEq

end EventRelay
