import EventRelay.Chain.Error
import EventRelay.Log.Filter
import EventRelay.Rpc.Record

/-!
# Requests and responses

A `Request` is what is sent to a node, a `Response` what comes back. A `Question` is a request with
the form of its result. A `Session` is a line to one node on a clock: `Session.ask` sends a
request, keeps it on record, and reads the next response. Over some lines a node also sends on its
own, once it was asked to; what then comes is `Pushed`.
-/

namespace EventRelay.Rpc

/-- What is sent to a node. -/
structure Request where
  method : String
  parameters : Option (List Json)

/-- What a node says instead of a result. -/
structure Refusal where
  code : Int
  text : String
  data : Option Json

/-- What a node sends back. -/
inductive Response
  | result (value : Json)
  | refusal (r : Refusal)

/-- Why a question stays open. -/
inductive Failure
  | noResponse
  | refused (r : Refusal)
  /-- The result is not of the form that the question asks for. -/
  | unreadable
  /-- The node cannot send on its own over this line. -/
  | noSubscriptions

/-- The text of a refusal. -/
def Refusal.message (r : Refusal) : String :=
  "error code " ++ Text.Decimal.ofInt r.code ++ ": " ++ r.text ++
    match r.data with
    | some d => ", data: " ++ d.render
    | none => ""

/-- The text of a failure. -/
def Failure.message : Failure → String
  | .noResponse => "no response"
  | .refused r => "server returned an error response: " ++ r.message
  | .unreadable => "deserialization error"
  | .noSubscriptions => "subscriptions are not available on this provider"

/-- A request and how its result is read. -/
structure Question (α : Type) where
  request : Request
  read? : Json → Option α
  /-- What goes wrong when the question stays open. -/
  blame : String → ChainError

namespace Question

/-- A question for what a node knows. -/
def about {α : Type} (method : String) (parameters : Option (List Json))
    (read? : Json → Option α) : Question α :=
  ⟨⟨method, parameters⟩, read?, .request⟩

/-- The error when a question stays open. -/
def error {α : Type} (q : Question α) (f : Failure) : ChainError := q.blame f.message

/-- The number of the chain. -/
def chainId : Question UInt64 := about "eth_chainId" none Quantity.word64?

/-- The number of the newest block. -/
def blockNumber : Question UInt64 := about "eth_blockNumber" none Quantity.word64?

/-- What a unit of gas costs. -/
def gasPrice : Question Nat := about "eth_gasPrice" none (Quantity.ofJson? 128)

/-- How many transactions an account has sent, those not yet in a block among them. -/
def transactionCount (account : Address) : Question UInt64 :=
  about "eth_getTransactionCount" (some [.str account.hex, .str "pending"]) Quantity.word64?

/-- To take a signed transaction; the result is its hash. -/
def submit (raw : Bytes) : Question Word :=
  ⟨⟨"eth_sendRawTransaction", some [.str (Text.Hex.encode raw)]⟩, word?, .submission⟩

/-- The receipt of a transaction, null as long as there is none. -/
def receipt (hash : Word) : Question (Option Receipt) :=
  about "eth_getTransactionReceipt" (some [.str hash.hex]) (orNull? receipt?)

/-- To keep the logs that a filter selects from now on; the result names the filter. -/
def newFilter (f : LogFilter) : Question Nat :=
  about "eth_newFilter" (some [f.toJson]) (Quantity.ofJson? 256)

/-- To send on its own the logs that a filter selects from now on; the result names the
subscription. -/
def subscription (f : LogFilter) : Question Unit :=
  about "eth_subscribe" (some [.str "logs", f.toJson]) fun
    | .str _ => some ()
    | j => (Quantity.ofJson? 256 j).map fun _ => ()

/-- The logs in the chain that a filter selects. -/
def logs (f : LogFilter) : Question (List Log) :=
  about "eth_getLogs" (some [f.toJson]) (list? log?)

/-- The logs that came since a filter was last asked for them. -/
def changes (filter : Nat) : Question (List Log) :=
  about "eth_getFilterChanges" (some [.str (quantity filter)]) (list? log?)

end Question

/-- What a node sends on its own to a subscription. -/
structure Pushed where
  /-- The notices, each with the time at which it comes. -/
  notices : List (Nat × Json)
  /-- The time at which the line is lost, if it is. -/
  lost : Option Nat

/-- A line to a node. -/
structure Session where
  /-- The time in milliseconds. -/
  now : Nat
  /-- What the node will answer, in order. -/
  responses : List Response
  /-- What was sent, and when. -/
  sent : List (Nat × Request)
  /-- What the node sends on its own, by the filter of the subscription and the time at which it is
  opened, where the line is one over which a node can. -/
  pushes : Option (LogFilter → Nat → Pushed)

namespace Session

/-- A line over which nothing was sent yet, and over which a node only answers. -/
def opening (responses : List Response) : Session := ⟨0, responses, [], none⟩

/-- Sends a request and takes the next response. -/
def send (s : Session) (r : Request) : Except Failure Json × Session :=
  let sent := s.sent ++ [(s.now, r)]
  match s.responses with
  | [] => (.error .noResponse, { s with sent })
  | .result v :: responses => (.ok v, { s with sent, responses })
  | .refusal e :: responses => (.error (.refused e), { s with sent, responses })

/-- Asks a question. -/
def ask {α : Type} (s : Session) (q : Question α) : Except Failure α × Session :=
  match s.send q.request with
  | (.ok v, s) => (match q.read? v with | some a => .ok a | none => .error .unreadable, s)
  | (.error e, s) => (.error e, s)

end Session

end EventRelay.Rpc
