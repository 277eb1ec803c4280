import EventRelay.Word

/-!
# Logs

A log is what a contract emitted: its topics and data, and where in the chain it stands as far as
the node said so.
-/

namespace EventRelay

/-- A log of a contract. -/
structure Log where
  address : Address
  topics : List Word
  data : Bytes
  block : Option UInt64
  index : Option UInt64
  transaction : Option Word
  deriving DecidableEq

namespace Log

/-- The first topic, which names the event. -/
def topic0 (l : Log) : Option Word := l.topics.head?

/-- Where the log stands: its block and its index in the block, if both are known. -/
def position? (l : Log) : Option (UInt64 × UInt64) := do
  let block ← l.block
  let index ← l.index
  pure (block, index)

end Log

end EventRelay
