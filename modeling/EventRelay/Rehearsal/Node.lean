import EventRelay.Chain.Query

/-!
# Scripted nodes

A scripted node answers from lists of cues, one list for each kind of question, and keeps a record
of what it was asked. Each question takes the next cue; the last of a list serves all further
questions. A node that is given no cues answers with a default.
-/

namespace EventRelay.Rehearsal

/-- What a node does when it is asked. -/
inductive Cue (α : Type)
  | answer (a : α)
  | fail (e : ChainError)
  /-- It never answers. -/
  | silence

/-- The next cue and those after it. -/
def Cue.next {α : Type} (default : α) : List (Cue α) → Cue α × List (Cue α)
  | [] => (.answer default, [])
  | [c] => (c, [c])
  | c :: rest => (c, rest)

/-- What a cue amounts to: an answer or an error, or nothing ever. -/
def Cue.result? {α β : Type} (f : α → β) : Cue α → Option (Except ChainError β)
  | .answer a => some (.ok (f a))
  | .fail e => some (.error e)
  | .silence => none

/-- What a subscription sends: logs with a pause before each. -/
structure Feed where
  logs : List Log
  pause : Nat
  /-- Whether it ends after the logs. -/
  ends : Bool

/-- The feed that sends nothing. -/
def Feed.silent : Feed := ⟨[], 0, false⟩

/-- The next cue for a subscription. Once a feed has been served and at most one more cue is left,
all further subscriptions are silent. -/
def Feed.next : List (Cue Feed) → Cue Feed × List (Cue Feed)
  | [] => (.answer .silent, [])
  | .answer f :: rest => (.answer f, if rest.length ≤ 1 then [] else rest)
  | [c] => (c, [c])
  | c :: rest => (c, rest)

/-- A receipt that a node gives, for the transaction that it is asked about unless it names one. -/
structure GivenReceipt where
  hash : Option Word
  block : Option UInt64
  status : Bool
  logs : List Log

/-- A question that was asked, and when. -/
structure Asked where
  query : Query
  time : Nat

/-- A scripted node. -/
structure Node where
  chainIds : List (Cue UInt64)
  nonces : List (Cue UInt64)
  gasPrices : List (Cue Nat)
  heads : List (Cue UInt64)
  /-- The hashes of submitted transactions, where they are not chosen by the node. -/
  submits : List (Cue (Option Word))
  receipts : List (Cue (Option GivenReceipt))
  feeds : List (Cue Feed)
  /-- How long an answer takes. -/
  latency : Nat
  /-- Whether the node names a transaction by its digest; else it numbers them. -/
  digests : Bool
  /-- The first byte of the names that are numbers. -/
  marker : UInt8
  /-- How many transactions it took. -/
  taken : Nat
  /-- What the present subscription has still to send. -/
  feed : Feed
  /-- What was asked, the last first. -/
  asked : List Asked

namespace Node

/-- The name of the transaction with a number. -/
def numbered (marker : UInt8) (n : Nat) : Word :=
  BitVec.ofNat 256 (marker.toNat * Bytes.capacity 31 + n % UInt64.size)

/-- Takes a transaction or not. -/
def takeTransaction (n : Node) (t : SignedTransaction) : Option (Except ChainError Word) × Node :=
  let (cue, rest) := Cue.next none n.submits
  let n := { n with submits := rest }
  match cue with
  | .answer given =>
    let n := { n with taken := n.taken + 1 }
    let own := if n.digests then t.hash else numbered n.marker n.taken
    (some (.ok (given.getD own)), n)
  | .fail e => (some (.error e), n)
  | .silence => (none, n)

/-- The receipt of a transaction as it is given. -/
def receiptFor (hash : Word) (given : Option GivenReceipt) : Option Receipt :=
  given.map fun r => ⟨r.hash.getD hash, r.block, r.status, r.logs⟩

/-- The answer to a question, `none` if there is never one, and the node afterwards. -/
def reply (n : Node) : (q : Query) → Option (Except ChainError q.Reply) × Node
  | .chainId =>
    let (cue, rest) := Cue.next 1 n.chainIds
    (cue.result? id, { n with chainIds := rest })
  | .transactionCount _ =>
    let (cue, rest) := Cue.next 0 n.nonces
    (cue.result? id, { n with nonces := rest })
  | .gasPrice =>
    let (cue, rest) := Cue.next 1000000000 n.gasPrices
    (cue.result? id, { n with gasPrices := rest })
  | .blockNumber =>
    let (cue, rest) := Cue.next 0 n.heads
    (cue.result? id, { n with heads := rest })
  | .submit t => n.takeTransaction t
  | .receipt hash =>
    let (cue, rest) := Cue.next (some ⟨none, none, true, []⟩) n.receipts
    (cue.result? (receiptFor hash), { n with receipts := rest })
  | .subscribe _ =>
    let (cue, rest) := Feed.next n.feeds
    let n := { n with feeds := rest }
    match cue with
    | .answer f => (some (.ok ()), { n with feed := f })
    | .fail e => (some (.error e), n)
    | .silence => (none, n)

/-- Asks a node at a time. -/
def ask (n : Node) (time : Nat) (q : Query) : Option (Except ChainError q.Reply) × Node :=
  { n with asked := ⟨q, time⟩ :: n.asked }.reply q

end Node

end EventRelay.Rehearsal
