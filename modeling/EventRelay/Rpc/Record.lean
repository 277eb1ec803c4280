import EventRelay.Receipt
import EventRelay.Rpc.Quantity

/-!
# Records of nodes

What a node writes about logs and receipts, read from JSON. A record is an object; members that no
record has are passed over, and one member that is not of its form makes the whole record
unreadable.
-/

namespace EventRelay.Rpc

/-- The items of a list, if each can be read. -/
def list? {α : Type} (read? : Json → Option α) : Json → Option (List α)
  | .arr items => items.mapM read?
  | _ => none

/-- A member that may be null. -/
def orNull? {α : Type} (read? : Json → Option α) : Json → Option (Option α)
  | .null => some none
  | j => (read? j).map some

/-- A member that has to be there. -/
def member? {α : Type} (j : Json) (name : String) (read? : Json → Option α) : Option α := do
  read? (← j.get? name)

/-- A member that may be null or left out. -/
def optional? {α : Type} (j : Json) (name : String) (read? : Json → Option α) :
    Option (Option α) :=
  match j.get? name with
  | some v => orNull? read? v
  | none => some none

/-- A member that may be left out, but not null. -/
def default? {α : Type} (j : Json) (name : String) (default : α) (read? : Json → Option α) :
    Option α :=
  match j.get? name with
  | some v => read? v
  | none => some default

/-- A byte string: two digits a byte, a mark in front or not, or a list of bytes. -/
def bytes? : Json → Option Bytes
  | .str s => Text.Hex.decode? s
  | .arr items => items.mapM byte?
  | _ => none
where
  /-- A number below 256 that is written as one. -/
  byte? : Json → Option UInt8
    | .num n => (n.natural?.filter (· < 256)).map UInt8.ofNat
    | _ => none

/-- A byte string of a given length. -/
def exactly? (length : Nat) (j : Json) : Option Bytes := (bytes? j).filter (·.length = length)

/-- A word: 32 bytes. -/
def word? (j : Json) : Option Word := (exactly? 32 j).map Word.ofBytes

/-- An address: 20 bytes. -/
def address? (j : Json) : Option Address := (exactly? 20 j).map Address.ofBytes

/-- A truth value. -/
def flag? : Json → Option Bool
  | .bool b => some b
  | _ => none

/-- A log. Its place in the chain is null as long as it has none; whether it was taken back by a
reorganisation is read and passed over. -/
def log? (j : Json) : Option Log := do
  let address ← member? j "address" address?
  let topics ← member? j "topics" (list? word?)
  let data ← member? j "data" bytes?
  let block ← member? j "blockNumber" (orNull? Quantity.word64?)
  let index ← member? j "logIndex" (orNull? Quantity.word64?)
  let transaction ← optional? j "transactionHash" word?
  let _ ← member? j "transactionIndex" (orNull? Quantity.word64?)
  let _ ← optional? j "blockHash" word?
  let _ ← optional? j "blockTimestamp" Quantity.word64?
  let _ ← default? j "removed" false flag?
  pure ⟨address, topics, data, block, index, transaction⟩

/-- The kinds of transactions: zero to four, as a number or to base sixteen with one digit or
two. -/
def kind? : Json → Option Nat
  | .num n => n.natural?.filter (· < 5)
  | .str s => ((List.range 5).find? fun k =>
      s = "0x" ++ Text.Decimal.ofNat k || s = "0x0" ++ Text.Decimal.ofNat k)
  | _ => none

/-- Whether a transaction took effect: its status says so, and one from before there were statuses
has a state root instead. -/
def status? (j : Json) : Option Bool :=
  match member? j "status" (Quantity.ofJson? 1) with
  | some bit => some (bit = 1)
  | none => (member? j "root" word?).map fun _ => true

/-- A receipt. -/
def receipt? (j : Json) : Option Receipt := do
  let _ ← member? j "type" kind?
  let status ← status? j
  let _ ← member? j "cumulativeGasUsed" Quantity.word64?
  let logs ← member? j "logs" (list? log?)
  let _ ← member? j "logsBloom" (exactly? 256)
  let hash ← member? j "transactionHash" word?
  let block ← optional? j "blockNumber" Quantity.word64?
  let _ ← optional? j "blockHash" word?
  let _ ← optional? j "transactionIndex" Quantity.word64?
  let _ ← member? j "gasUsed" Quantity.word64?
  let _ ← default? j "effectiveGasPrice" 0 (Quantity.ofJson? 128)
  let _ ← optional? j "blobGasUsed" Quantity.word64?
  let _ ← optional? j "blobGasPrice" (Quantity.ofJson? 128)
  let _ ← member? j "from" address?
  let _ ← optional? j "to" address?
  let _ ← optional? j "contractAddress" address?
  pure ⟨hash, block, status, logs⟩

end EventRelay.Rpc
