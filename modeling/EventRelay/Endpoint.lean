import EventRelay.Url.Scheme

/-!
# Endpoints

An endpoint is the URL of a node and the transport that reaches it. The scheme of the URL names the
transport; a configuration may name another one.
-/

namespace EventRelay

/-- How a node is reached. -/
inductive Transport
  /-- Requests and answers. -/
  | http
  /-- A connection over which the node sends on its own. -/
  | ws
  deriving DecidableEq

/-- The name of a transport in configurations. -/
def Transport.name : Transport → String
  | .http => "http"
  | .ws => "ws"

/-- The transport that the scheme of a URL names. -/
def Transport.ofUrl? (url : String) : Option Transport := do
  let scheme ← Url.scheme? url
  if scheme = "http" || scheme = "https" then some .http
  else if scheme = "ws" || scheme = "wss" then some .ws
  else none

/-- Where a node is and how it is reached. -/
structure Endpoint where
  url : String
  transport : Transport

/-- A URL that names no transport. -/
structure UnsupportedUrl where
  url : String

/-- The text of the error. -/
def UnsupportedUrl.message (e : UnsupportedUrl) : String :=
  "unsupported RPC URL '" ++ e.url ++ "', expected an http(s):// or ws(s):// URL"

/-- The endpoint that a URL names on its own. -/
def Endpoint.ofUrl (url : String) : Except UnsupportedUrl Endpoint :=
  match Transport.ofUrl? url with
  | some t => .ok ⟨url, t⟩
  | none => .error ⟨url⟩

end EventRelay
