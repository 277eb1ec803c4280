import EventRelay.Endpoint

/-!
# What goes wrong with nodes

A `ChainError` is an error at a node, by what was being done; its text is the node's or the
transport's.
-/

namespace EventRelay

/-- An error at a node. -/
inductive ChainError
  /-- The node cannot be reached. -/
  | connection (text : String)
  /-- A question was not answered, or not with what it asks for. -/
  | request (text : String)
  /-- The node did not take a transaction. -/
  | submission (text : String)
  | internal (text : String)
  deriving DecidableEq

/-- The text of the error. -/
def ChainError.message : ChainError → String
  | .connection text => "Connection error: " ++ text
  | .request text => "Request error: " ++ text
  | .submission text => "Submission error: " ++ text
  | .internal text => "Internal error: " ++ text

/-- What the node or the transport said. -/
def ChainError.text : ChainError → String
  | .connection text | .request text | .submission text | .internal text => text

/-- The error when a node that is asked at an endpoint does not answer. -/
def Endpoint.silent (e : Endpoint) (text : String) : ChainError :=
  .connection (e.url ++ " did not answer: " ++ text)

/-- The error when there is no node at an endpoint. A connection that lasts fails as it is made, a
request only as it is sent; the URL decides which it is. -/
def Endpoint.unreachable (e : Endpoint) (text : String) : ChainError :=
  match Transport.ofUrl? e.url with
  | some .ws => .connection ("failed to connect to " ++ e.url ++ ": " ++ text)
  | _ => e.silent text

end EventRelay
